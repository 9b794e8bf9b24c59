import Hlang.Lib.Machine
import Hlang.Ir.Semantics

/-!
# Hlang.Ir.Events — the effects of emitted code

Calls are what can be seen of a run. An `Oracle` answers a call with all earlier calls in
view, so any sequence of answers is possible. `Goes` is a run from one point of the code
to another, whatever the registers hold; switches take their targets from a table `T`.
-/

namespace Hlang.Ir

open Machine

/-- `v != 0`. -/
def Val.truth : Val → Bool
  | .int x => x ≠ 0
  | .fp q => q ≠ 0

/-- A call: the function and its arguments. -/
structure Event where
  callee : Val
  args : List Val
deriving DecidableEq

/-- A world in which functions answer with the earlier calls in view. -/
structure Oracle where
  world : World
  answer : List Event → Val → List Val → Mem → Option (Option Val × Mem)

/-- The world after some calls. -/
def Oracle.seen (O : Oracle) (es : List Event) : World := { O.world with call := O.answer es }

@[simp] theorem Oracle.eval_seen (O : Oracle) (es : List Event) (ρ : Regs) (v : Value) :
    v.eval (O.seen es) ρ = v.eval O.world ρ := by
  cases v <;> rfl

@[simp] theorem Oracle.evalInt_seen (O : Oracle) (es : List Event) (ρ : Regs) (v : Value) :
    v.evalInt (O.seen es) ρ = v.evalInt O.world ρ := by
  unfold Value.evalInt
  rw [O.eval_seen]

/-- What can be seen of a run: the memory and the calls so far. -/
abbrev St := Mem × List Event

/-- A configuration, with the calls so far. -/
abbrev EConfig := Config × List Event

/-- The targets of the switches, by number. -/
abbrev Switches := Nat → I64 → Option Blk

/-- The call an instruction makes. -/
def Instr.event? (W : World) (ρ : Regs) : Instr → Option Event
  | .call _ callee args => some ⟨callee.eval W ρ, args.map (·.eval W ρ)⟩
  | _ => none

/-- One instruction. -/
def Instr.runIn (O : Oracle) (T : Switches) (s : EConfig) : Instr → Option EConfig
  | .switch n v =>
      (v.evalInt O.world s.1.regs).bind fun x => (T n x).map fun b => (s.1.jump b, s.2)
  | i => (i.run (O.seen s.2) s.1).map fun c =>
      (c, s.2 ++ (i.event? O.world s.1.regs).toList)

/-- One step of the code `l`. -/
def eventStep (O : Oracle) (T : Switches) (l : Log) (s : EConfig) : Option EConfig :=
  (l.code s.1.blk)[s.1.pos]?.bind (Instr.runIn O T s)

/-- What can be seen of a configuration. -/
def EConfig.st (s : EConfig) : St := (s.1.mem, s.2)

/-- The configuration at a point of the code. -/
def Point.at (p : Blk × Nat) (prev : Blk) (ρ : Regs) (st : St) : EConfig :=
  (⟨p.1, p.2, prev, ρ, st.1⟩, st.2)

section Steps

variable {O : Oracle} {T : Switches} {l l' : Log} {s s' : EConfig}

theorem eventStep_extend (hl : l <+: l') (h : eventStep O T l s = some s') :
    eventStep O T l' s = some s' := by
  rcases hl with ⟨t, rfl⟩
  unfold eventStep at h ⊢
  rcases Option.bind_eq_some_iff.mp h with ⟨i, hi, hrun⟩
  rw [Log.code_append, List.getElem?_append_left (List.getElem?_eq_some_iff.mp hi).1, hi]
  exact hrun

/-- Calls are never forgotten. -/
theorem eventStep_events (h : eventStep O T l s = some s') : s.2 <+: s'.2 := by
  rcases Option.bind_eq_some_iff.mp h with ⟨i, _, hrun⟩
  unfold Instr.runIn at hrun
  split at hrun
  · rcases Option.bind_eq_some_iff.mp hrun with ⟨x, _, hb⟩
    rcases Option.map_eq_some_iff.mp hb with ⟨b, _, rfl⟩
    exact List.prefix_refl _
  · rcases Option.map_eq_some_iff.mp hrun with ⟨c, _, rfl⟩
    exact List.prefix_append _ _

/-- There is no step at the end of a block that is not ended. -/
theorem eventStep_end {p : Blk × Nat} (hp : (l.code p.1)[p.2]? = none) (prev : Blk) (ρ : Regs)
    (st : St) : eventStep O T l (Point.at p prev ρ st) = none := by
  unfold eventStep Point.at
  rw [hp]
  rfl

/-- There is no step at a `ret`. -/
theorem eventStep_ret {p : Blk × Nat} {v : Option Value} (hp : (l.code p.1)[p.2]? = some (.ret v))
    (prev : Blk) (ρ : Regs) (st : St) : eventStep O T l (Point.at p prev ρ st) = none := by
  unfold eventStep Point.at
  rw [hp]
  rfl

/-- A branch. -/
theorem eventStep_br {p : Blk × Nat} {b : Blk} (hp : (l.code p.1)[p.2]? = some (.br b)) (prev : Blk)
    (ρ : Regs) (st : St) :
    eventStep O T l (Point.at p prev ρ st) = some (Point.at (b, 0) p.1 ρ st) := by
  unfold eventStep Point.at
  rw [hp]
  change some (_, st.2 ++ []) = _
  rw [List.append_nil]
  rfl

/-- A switch. -/
theorem eventStep_switch {p : Blk × Nat} {n : Nat} {v : Value} {x : I64} {b : Blk} {ρ : Regs}
    (hp : (l.code p.1)[p.2]? = some (.switch n v)) (hv : v.eval O.world ρ = .int x)
    (hT : T n x = some b) (prev : Blk) (st : St) :
    eventStep O T l (Point.at p prev ρ st) = some (Point.at (b, 0) p.1 ρ st) := by
  unfold eventStep Point.at
  rw [hp]
  change (v.evalInt O.world ρ).bind _ = _
  unfold Value.evalInt
  rw [hv]
  change (T n x).map _ = _
  rw [hT]
  rfl

end Steps

/-! ## Words in memory -/

/-- Bit `i` of a word that is read. -/
theorem Mem.getLsbD_read (m : Mem) (n : Nat) : ∀ (a : I64) (i : Nat), i < 64 →
    (m.read a n).getLsbD i =
      (decide (i < 8 * n) && (m (a + BitVec.ofNat 64 (i / 8))).getLsbD (i % 8)) := by
  induction n with
  | zero =>
      intro a i _
      simp [Mem.read]
  | succ n ih =>
      intro a i hi
      unfold Mem.read
      rw [BitVec.getLsbD_or, BitVec.getLsbD_shiftLeft, BitVec.getLsbD_setWidth]
      by_cases h8 : i < 8
      · have hdiv : i / 8 = 0 := Nat.div_eq_of_lt h8
        have hmod : i % 8 = i := Nat.mod_eq_of_lt h8
        have hlt : i < 8 * (n + 1) := by omega
        rw [hdiv, hmod]
        simp [h8, hi, hlt]
      · -- the rest of the word begins at the next byte
        have hbyte := ih (a + 1) (i - 8) (by omega)
        have hoff : a + 1 + BitVec.ofNat 64 ((i - 8) / 8) = a + BitVec.ofNat 64 (i / 8) := by
          have hdiv : i / 8 = (i - 8) / 8 + 1 := by omega
          rw [hdiv, BitVec.ofNat_add, BitVec.add_assoc]
          exact congrArg (a + ·) (BitVec.add_comm 1#64 _)
        have hmod : (i - 8) % 8 = i % 8 := by omega
        have hhigh : (m a).getLsbD i = false := BitVec.getLsbD_of_ge _ _ (by omega)
        have hlt : (i - 8 < 8 * n) = (i < 8 * (n + 1)) := by
          rw [eq_iff_iff]
          omega
        rw [hbyte, hoff, hmod, hhigh]
        simp [h8, hi, hlt]

/-- A word of `n` bytes is read back as it was written. -/
theorem Mem.read_write (m : Mem) (a : I64) {n : Nat} {v : I64}
    (hv : v.toNat < 2 ^ (8 * n)) : (m.write a n (byteOf v)).read a n = v := by
  refine BitVec.eq_of_getLsbD_eq fun i hi => ?_
  rw [Mem.getLsbD_read _ _ _ _ hi]
  by_cases hlt : i < 8 * n
  · have hoff : (a + BitVec.ofNat 64 (i / 8) - a).toNat = i / 8 := by
      rw [BitVec.add_comm, BitVec.add_sub_cancel, BitVec.toNat_ofNat]
      exact Nat.mod_eq_of_lt (by omega)
    have hbyte : (m.write a n (byteOf v)) (a + BitVec.ofNat 64 (i / 8)) = byteOf v (i / 8) := by
      unfold Mem.write
      rw [hoff]
      exact if_pos (by omega)
    have hbit : 8 * (i / 8) + i % 8 = i := Nat.div_add_mod i 8
    have hsmall : i % 8 < 8 := Nat.mod_lt _ (by decide)
    rw [hbyte]
    unfold byteOf
    rw [BitVec.getLsbD_setWidth, BitVec.getLsbD_ushiftRight, hbit]
    simp [hlt, hsmall]
  · have hzero : v.getLsbD i = false :=
      Nat.testBit_lt_two_pow
      (Nat.lt_of_lt_of_le hv (Nat.pow_le_pow_right (by decide) (Nat.le_of_not_lt hlt)))
    rw [hzero]
    simp [hlt]

/-! ## Runs between points -/

/-- From `p`, where `st` is seen, the code goes to `p'`, where `st'` is seen, in `n` steps at
least. -/
def Goes (O : Oracle) (T : Switches) (l : Log) (n : Nat) (p : Blk × Nat) (st : St) (p' : Blk × Nat)
    (st' : St) : Prop :=
  ∀ prev ρ, ∃ k prev' ρ', n ≤ k ∧
    After (eventStep O T l) k (Point.at p prev ρ st) (Point.at p' prev' ρ' st')

section Goes

variable {O : Oracle} {T : Switches} {l l' : Log} {m n : Nat} {p q r : Blk × Nat} {st st' st'' : St}

theorem Goes.refl (p : Blk × Nat) (st : St) : Goes O T l 0 p st p st :=
  fun prev ρ => ⟨0, prev, ρ, Nat.le_refl 0, .zero _⟩

theorem Goes.trans (h : Goes O T l m p st q st') (h' : Goes O T l n q st' r st'') :
    Goes O T l (m + n) p st r st'' := by
  intro prev ρ
  rcases h prev ρ with ⟨k, prev', ρ', hk, hrun⟩
  rcases h' prev' ρ' with ⟨k', prev'', ρ'', hk', hrun'⟩
  exact ⟨k + k', prev'', ρ'', Nat.add_le_add hk hk', hrun.trans hrun'⟩

theorem Goes.weaken (h : Goes O T l m p st q st') (hn : n ≤ m) : Goes O T l n p st q st' := by
  intro prev ρ
  rcases h prev ρ with ⟨k, prev', ρ', hk, hrun⟩
  exact ⟨k, prev', ρ', Nat.le_trans hn hk, hrun⟩

theorem Goes.extend (h : Goes O T l n p st q st') (hl : l <+: l') : Goes O T l' n p st q st' := by
  intro prev ρ
  rcases h prev ρ with ⟨k, prev', ρ', hk, hrun⟩
  exact ⟨k, prev', ρ', hk, hrun.mono fun _ _ => eventStep_extend hl⟩

/-- A branch. -/
theorem Goes.br {b : Blk} (h : (l.code p.1)[p.2]? = some (.br b)) (st : St) :
    Goes O T l 1 p st (b, 0) st :=
  fun prev ρ => ⟨1, p.1, ρ, Nat.le_refl 1, .single (eventStep_br h prev ρ st)⟩

/-- A constant is stored in a slot. -/
theorem Goes.store {m : Nat} {x : I64}
    (h : (l.code p.1)[p.2]? = some (.store (.int 32) (.int 32 x) (.slot m))) (st : St) :
    Goes O T l 1 p st (p.1, p.2 + 1) (st.1.write (O.world.slotAddr m) 4 (byteOf x), st.2) := by
  intro prev ρ
  refine ⟨1, prev, ρ, Nat.le_refl 1, .single ?_⟩
  unfold eventStep Point.at
  rw [h]
  change some (_, st.2 ++ []) = _
  rw [List.append_nil]
  rfl

/-- A switch on what is read from a slot. -/
theorem Goes.switch {m n : Nat} {r : Reg} {ty : LTy} {b : Blk}
    (hload : (l.code p.1)[p.2]? = some (.op r (.load (.int 32) (.slot m))))
    (hswitch : (l.code p.1)[p.2 + 1]? = some (.switch n (.reg ty r))) {st : St}
    (hT : T n (st.1.read (O.world.slotAddr m) 4) = some b) : Goes O T l 2 p st (b, 0) st := by
  intro prev ρ
  let ρ' := Function.update ρ r (.int (st.1.read (O.world.slotAddr m) 4))
  have hfirst : eventStep O T l (Point.at p prev ρ st) =
      some (Point.at (p.1, p.2 + 1) prev ρ' st) := by
    unfold eventStep Point.at
    rw [hload]
    change some (_, st.2 ++ []) = _
    rw [List.append_nil]
    rfl
  have hreg : (Value.reg ty r).eval O.world ρ' = .int (st.1.read (O.world.slotAddr m) 4) :=
    Function.update_self ..
  exact ⟨2, p.1, ρ', Nat.le_refl 2, .succ hfirst
    (.single (eventStep_switch (p := (p.1, p.2 + 1)) hswitch hreg hT prev st))⟩

end Goes

end Hlang.Ir
