import Hlang.Codegen.Builder
import Hlang.Ir.Semantics

/-!
# Hlang.Codegen.Region — what a stretch of code generation appends

Between two states of the builder lies a region of code. `Builder.Le` says what
the region leaves alone: the code before it, the blocks that were not current,
and the names of earlier results. `Emits` adds a run through the region. Both
compose.
-/

namespace Hlang.Codegen

open Ir

/-! ## The state of the builder -/

namespace Builder

/-- The code of a block so far. -/
def code (B : Builder) (b : Blk) : List Instr := B.log.code b

/-- The current block exists, and blocks not yet created have no code. -/
structure Wf (B : Builder) : Prop where
  cur : B.cur < B.nextBlk
  fresh : ∀ b, B.nextBlk ≤ b → B.code b = []

/-- `B'` continues `B`. -/
structure Le (B B' : Builder) : Prop where
  log : B.log <+: B'.log
  blk : B.nextBlk ≤ B'.nextBlk
  reg : B.nextReg ≤ B'.nextReg
  cur : B'.cur = B.cur ∨ B.nextBlk ≤ B'.cur
  kept : ∀ b, b < B.nextBlk → b ≠ B.cur → B'.code b = B.code b
  errors : B.errors <+: B'.errors

theorem Le.refl (B : Builder) : B.Le B :=
  ⟨List.prefix_refl _, Nat.le_refl _, Nat.le_refl _, .inl rfl, fun _ _ _ => rfl,
    List.prefix_refl _⟩

theorem Le.trans {B₁ B₂ B₃ : Builder} (h : B₁.Le B₂) (h' : B₂.Le B₃) : B₁.Le B₃ := by
  refine ⟨h.log.trans h'.log, h.blk.trans h'.blk, h.reg.trans h'.reg, ?_, ?_,
    h.errors.trans h'.errors⟩
  · rcases h'.cur with hcur | hcur
    · rw [hcur]
      exact h.cur
    · exact .inr (h.blk.trans hcur)
  · intro b hb hne
    have hne' : b ≠ B₂.cur := by
      rcases h.cur with hcur | hcur
      · rwa [hcur]
      · exact Nat.ne_of_lt (Nat.lt_of_lt_of_le hb hcur)
    rw [h'.kept b (Nat.lt_of_lt_of_le hb h.blk) hne', h.kept b hb hne]

/-- The state after appending an instruction. -/
def push (B : Builder) (i : Instr) : Builder := { B with log := B.log ++ [(B.cur, i)] }

theorem code_push_self (B : Builder) (i : Instr) : (B.push i).code B.cur = B.code B.cur ++ [i] := by
  unfold code push
  rw [Log.code_append, Log.code_cons_self, Log.code_nil]

theorem code_push_other {B : Builder} {b : Blk} (h : b ≠ B.cur) (i : Instr) :
    (B.push i).code b = B.code b := by
  unfold code push
  rw [Log.code_append, Log.code_cons_other (Ne.symm h), Log.code_nil, List.append_nil]

theorem Wf.push {B : Builder} (h : B.Wf) (i : Instr) : (B.push i).Wf := by
  refine ⟨h.cur, ?_⟩
  intro b hb
  have hlt := h.cur
  rw [code_push_other (Nat.ne_of_gt (Nat.lt_of_lt_of_le hlt hb))]
  exact h.fresh b hb

theorem Le.push (B : Builder) (i : Instr) : B.Le (B.push i) :=
  ⟨List.prefix_append _ _, Nat.le_refl _, Nat.le_refl _, .inl rfl,
    fun _ _ hne => code_push_other hne i, List.prefix_refl _⟩

/-- The state with one more result name in use. -/
def bump (B : Builder) : Builder := { B with nextReg := B.nextReg + 1 }

theorem Wf.bump {B : Builder} (h : B.Wf) : B.bump.Wf := ⟨h.cur, h.fresh⟩

theorem Le.bump (B : Builder) : B.Le B.bump :=
  ⟨List.prefix_refl _, Nat.le_refl _, Nat.le_succ _, .inl rfl, fun _ _ _ => rfl,
    List.prefix_refl _⟩

/-- The state after `create o`. -/
def created (B : Builder) (o : Op) : Builder := (B.push (.op B.nextReg o)).bump

theorem Wf.created {B : Builder} (h : B.Wf) (o : Op) : (B.created o).Wf := (h.push _).bump

theorem Le.created (B : Builder) (o : Op) : B.Le (B.created o) := (Le.push B _).trans (Le.bump _)

@[simp] theorem created_nextReg (B : Builder) (o : Op) : (B.created o).nextReg = B.nextReg + 1 :=
  rfl

@[simp] theorem created_errors (B : Builder) (o : Op) : (B.created o).errors = B.errors := rfl

@[simp] theorem push_nextReg (B : Builder) (i : Instr) : (B.push i).nextReg = B.nextReg := rfl

@[simp] theorem push_errors (B : Builder) (i : Instr) : (B.push i).errors = B.errors := rfl

end Builder

/-! ## The generators, as functions of the state -/

namespace Gen

variable {α β : Type}

theorem bind_eq_ok {x : Gen α} {f : α → Gen β} {B : Builder} {r : β × Builder} :
    (x >>= f) B = .ok r ↔ ∃ a B₁, x B = .ok (a, B₁) ∧ f a B₁ = .ok r := by
  change (x B >>= fun p => f p.1 p.2) = .ok r ↔ _
  cases hx : x B with
  | error e => simp [bind, Except.bind]
  | ok p =>
      rcases p with ⟨a, B₁⟩
      simp [bind, Except.bind]

theorem bind_ok {x : Gen α} {f : α → Gen β} {B B₁ : Builder} {a : α} (h : x B = .ok (a, B₁)) :
    (x >>= f) B = f a B₁ := by
  change (x B >>= fun p => f p.1 p.2) = _
  rw [h]
  rfl

@[simp] theorem pure_apply (a : α) (B : Builder) : (pure a : Gen α) B = .ok (a, B) := rfl

theorem create_apply (o : Op) (B : Builder) :
    create o B = .ok (.reg o.type B.nextReg, B.created o) := rfl

theorem emit_apply (i : Instr) (B : Builder) : emit i B = .ok ((), B.push i) := rfl

end Gen

/-! ## Runs through a region -/

/-- Where a run stands at the end of the code so far. -/
def Builder.here (B : Builder) (prev : Blk) (ρ : Regs) (m : Mem) : Config :=
  { blk := B.cur, pos := (B.code B.cur).length, prev := prev, regs := ρ, mem := m }

/-- A run of the code of `B'` from the end of `B` to the end of `B'`. -/
def Runs (W : World) (B B' : Builder) (ρ : Regs) (m : Mem) (ρ' : Regs) (m' : Mem) : Prop :=
  ∀ prev, ∃ prev', Reaches W B'.log (B.here prev ρ m) (B'.here prev' ρ' m')

/-- The region from `B` to `B'` runs from one state to another and keeps the
earlier results. -/
structure Emits (W : World) (B B' : Builder) (ρ : Regs) (m : Mem) (ρ' : Regs) (m' : Mem) :
    Prop where
  le : B.Le B'
  regs : ∀ r, r < B.nextReg → ρ' r = ρ r
  runs : Runs W B B' ρ m ρ' m'

section Emits

variable {W : World} {B B' B'' : Builder} {ρ ρ' ρ'' : Regs} {m m' m'' : Mem}

theorem Emits.refl (W : World) (B : Builder) (ρ : Regs) (m : Mem) : Emits W B B ρ m ρ m :=
  ⟨.refl B, fun _ _ => rfl, fun prev => ⟨prev, .refl⟩⟩

theorem Emits.trans (h : Emits W B B' ρ m ρ' m') (h' : Emits W B' B'' ρ' m' ρ'' m'') :
    Emits W B B'' ρ m ρ'' m'' := by
  refine ⟨h.le.trans h'.le, ?_, ?_⟩
  · intro r hr
    rw [h'.regs r (Nat.lt_of_lt_of_le hr h.le.reg), h.regs r hr]
  · intro prev
    rcases h.runs prev with ⟨prev', hrun⟩
    rcases h'.runs prev' with ⟨prev'', hrun'⟩
    exact ⟨prev'', (hrun.extend h'.le.log).trans hrun'⟩

theorem Emits.eval (h : Emits W B B' ρ m ρ' m') {v : Value} (hv : v.Below B.nextReg) :
    v.eval W ρ' = v.eval W ρ := Value.eval_congr hv h.regs

/-- The next instruction of the run is the one just pushed. -/
theorem Builder.step_push (B : Builder) (i : Instr) (prev : Blk) (ρ : Regs) (m : Mem) :
    step W (B.push i).log (B.here prev ρ m) = i.run W (B.here prev ρ m) := by
  unfold step
  have hcode : (B.push i).log.code B.cur = B.code B.cur ++ [i] := B.code_push_self i
  change ((B.push i).log.code B.cur)[(B.code B.cur).length]?.bind _ = _
  rw [hcode, List.getElem?_append_right (Nat.le_refl _)]
  simp

/-- The run goes past the instruction just pushed. -/
theorem Builder.reaches_push {i : Instr} {prev : Blk} (hrun : i.run W (B.here prev ρ m) =
      some { (B.here prev ρ m) with pos := (B.code B.cur).length + 1, regs := ρ', mem := m' }) :
    Reaches W (B.push i).log (B.here prev ρ m) ((B.push i).here prev ρ' m') := by
  refine .single ?_
  rw [Builder.step_push, hrun]
  unfold Builder.here
  rw [show (B.push i).cur = B.cur from rfl, Builder.code_push_self]
  simp

/-- An instruction that goes on to the next position. -/
theorem Emits.push {i : Instr} (hrun : ∀ prev, i.run W (B.here prev ρ m) =
      some { (B.here prev ρ m) with pos := (B.code B.cur).length + 1, regs := ρ', mem := m' })
    (hregs : ∀ r, r < B.nextReg → ρ' r = ρ r) : Emits W B (B.push i) ρ m ρ' m' :=
  ⟨.push B i, hregs, fun prev => ⟨prev, Builder.reaches_push (hrun prev)⟩⟩

theorem Emits.bump (h : Emits W B B' ρ m ρ' m') : Emits W B B'.bump ρ m ρ' m' :=
  ⟨h.le.trans (.bump B'), h.regs, h.runs⟩

/-- `create o` computes the value of `o`. -/
theorem Emits.created {o : Op} {v : Val} (hv : o.eval W ρ m = some v) :
    Emits W B (B.created o) ρ m (Function.update ρ B.nextReg v) m := by
  refine Emits.bump (Emits.push ?_ ?_)
  · intro prev
    change (o.eval W ρ m).map _ = _
    rw [hv]
    rfl
  · intro r hr
    exact Function.update_of_ne (Nat.ne_of_lt hr) _ _

/-- At the end of the code so far there is no step. -/
theorem Builder.step_here (W : World) (B : Builder) (prev : Blk) (ρ : Regs) (m : Mem) :
    step W B.log (B.here prev ρ m) = none := by
  change (B.code B.cur)[(B.code B.cur).length]?.bind _ = none
  rw [List.getElem?_eq_none (Nat.le_refl _)]
  rfl

/-- There is one run to the end of the code. -/
theorem Runs.unique {ρ₁ ρ₂ : Regs} {m₁ m₂ : Mem} (h₁ : Runs W B B' ρ m ρ₁ m₁)
    (h₂ : Runs W B B' ρ m ρ₂ m₂) : ρ₁ = ρ₂ ∧ m₁ = m₂ := by
  rcases h₁ 0 with ⟨p₁, hr₁⟩
  rcases h₂ 0 with ⟨p₂, hr₂⟩
  have hdet : Relator.RightUnique fun c c' => step W B'.log c = some c' :=
    fun _ _ _ h h' => Option.some.inj (h.symm.trans h')
  have hstuck : ∀ {p q : Blk} {ρ ρ' : Regs} {m m' : Mem},
      Reaches W B'.log (B'.here p ρ m) (B'.here q ρ' m') → ρ = ρ' ∧ m = m' := by
    intro p q ρ ρ' m m' h
    rcases h.cases_head with heq | ⟨c, hstep, _⟩
    · unfold Builder.here at heq
      exact ⟨(Config.mk.inj heq).2.2.2.1, (Config.mk.inj heq).2.2.2.2⟩
    · rw [Builder.step_here] at hstep
      cases hstep
  rcases Relation.ReflTransGen.total_of_right_unique hdet hr₁ hr₂ with h | h
  · exact hstuck h
  · exact ⟨(hstuck h).1.symm, (hstuck h).2.symm⟩

end Emits

end Hlang.Codegen
