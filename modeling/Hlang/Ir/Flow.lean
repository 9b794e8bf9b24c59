import Hlang.Ir.Semantics
import Mathlib.Tactic.Common

/-!
# Hlang.Ir.Flow — control flow of the emitted code

Where control can go, without looking at values: a path takes any target of a
branch. Code that only branches forward, to blocks that are still empty when the
branch is appended, executes its instructions in the order of the log, each at
most once (`Trace.sublist`).
-/

namespace Hlang.Ir

/-- The blocks an instruction may branch to; those of a switch are in its table. -/
def Instr.targets : Instr → List Blk
  | .br b => [b]
  | .condBr _ t f => [t, f]
  | _ => []

/-- The mark of an instruction. -/
def Instr.site? : Instr → Option Site
  | .mark s => some s
  | _ => none

/-- The marks of a list of instructions, in order. -/
def marksOf (is : List Instr) : List Site := is.filterMap Instr.site?

@[simp] theorem marksOf_nil : marksOf [] = [] := rfl

@[simp] theorem marksOf_append (is js : List Instr) :
    marksOf (is ++ js) = marksOf is ++ marksOf js := List.filterMap_append

/-- The instructions of a log, in order. -/
def Log.instrs (l : Log) : List Instr := l.map Prod.snd

@[simp] theorem Log.instrs_nil : Log.instrs [] = [] := rfl

@[simp] theorem Log.instrs_append (l l' : Log) : Log.instrs (l ++ l') = l.instrs ++ l'.instrs :=
  List.map_append

/-- There is an edge from block `p` to block `b`. -/
def Log.Pred (l : Log) (p b : Blk) : Prop := ∃ i, (p, i) ∈ l ∧ b ∈ i.targets

theorem Log.pred_append {l l' : Log} {p b : Blk} :
    Log.Pred (l ++ l') p b ↔ l.Pred p b ∨ l'.Pred p b := by
  constructor
  · rintro ⟨i, hi, hb⟩
    rcases List.mem_append.mp hi with hi | hi
    · exact .inl ⟨i, hi, hb⟩
    · exact .inr ⟨i, hi, hb⟩
  · rintro (⟨i, hi, hb⟩ | ⟨i, hi, hb⟩)
    · exact ⟨i, List.mem_append_left _ hi, hb⟩
    · exact ⟨i, List.mem_append_right _ hi, hb⟩

theorem Log.mem_code {l : Log} {b : Blk} {i : Instr} : i ∈ l.code b ↔ (b, i) ∈ l := by
  unfold Log.code
  rw [List.mem_filterMap]
  constructor
  · rintro ⟨e, he, hi⟩
    split_ifs at hi with hb
    rcases Option.some.inj hi with rfl
    rcases hb with rfl
    exact he
  · intro h
    exact ⟨(b, i), h, if_pos rfl⟩

/-- A log without entries for a block has no code for it. -/
theorem Log.code_eq_nil {l : Log} {b : Blk} (h : ∀ e ∈ l, e.1 ≠ b) : l.code b = [] := by
  rw [List.eq_nil_iff_forall_not_mem]
  intro i hi
  exact h _ (Log.mem_code.mp hi) rfl

/-! ## Blocks -/

/-- No instruction of the code ends the block. -/
def Unended (c : List Instr) : Prop := ∀ i ∈ c, i.isTerminator = false

/-- The code has one terminator, its last instruction. -/
def Ended (c : List Instr) : Prop := ∃ body t, c = body ++ [t] ∧ Unended body ∧ t.isTerminator = true

theorem Unended.append {c c' : List Instr} (h : Unended c) (h' : Unended c') :
    Unended (c ++ c') := by
  intro i hi
  rcases List.mem_append.mp hi with hi | hi
  · exact h i hi
  · exact h' i hi

theorem unended_nil : Unended [] := fun _ h => absurd h List.not_mem_nil

theorem Unended.ended {c c' : List Instr} (h : Unended c) (h' : Ended c') : Ended (c ++ c') := by
  rcases h' with ⟨body, t, rfl, hbody, ht⟩
  exact ⟨c ++ body, t, (List.append_assoc _ _ _).symm, h.append hbody, ht⟩

/-! ## Paths -/

/-- A position in the code: a block and the number of an instruction in it. -/
abbrev Point := Blk × Nat

/-- Where control may go after the instruction at a point. -/
def Instr.next (i : Instr) (p : Point) : List Point :=
  if i.isTerminator then i.targets.map fun b => (b, 0) else [(p.1, p.2 + 1)]

/-- A path through the code, with the instructions it executes. -/
inductive Trace (l : Log) : Point → List Instr → Point → Prop where
  | nil (p : Point) : Trace l p [] p
  | cons {p q r : Point} {i : Instr} {is : List Instr} (hi : (l.code p.1)[p.2]? = some i)
      (hq : q ∈ i.next p) (h : Trace l q is r) : Trace l p (i :: is) r

theorem Trace.append {l : Log} {p q r : Point} {is js : List Instr} (h : Trace l p is q)
    (h' : Trace l q js r) : Trace l p (is ++ js) r := by
  induction h with
  | nil => exact h'
  | cons hi hq _ ih => exact .cons hi hq (ih h')

theorem Trace.single {l : Log} {p q : Point} {i : Instr} (hi : (l.code p.1)[p.2]? = some i)
    (hq : q ∈ i.next p) : Trace l p [i] q := .cons hi hq (.nil q)

/-- A path in the code so far is a path in the code that continues it. -/
theorem Trace.extend {l l' : Log} {p q : Point} {is : List Instr} (h : Trace l p is q)
    (hl : l <+: l') : Trace l' p is q := by
  rcases hl with ⟨t, rfl⟩
  induction h with
  | nil p => exact .nil p
  | cons hi hq _ ih =>
      refine .cons ?_ hq ih
      rw [Log.code_append, List.getElem?_append_left (List.getElem?_eq_some_iff.mp hi).1, hi]

/-- Every branch of `l'`, appended after `l`, goes to a block that has no code yet. -/
def Forward : Log → Log → Prop
  | _, [] => True
  | l, e :: l' => (∀ t ∈ e.2.targets, Log.code (l ++ [e]) t = []) ∧ Forward (l ++ [e]) l'

theorem forward_cons {l l' : Log} {e : Blk × Instr} : Forward l (e :: l') ↔
    (∀ t ∈ e.2.targets, Log.code (l ++ [e]) t = []) ∧ Forward (l ++ [e]) l' := Iff.rfl

theorem forward_append {l l₁ l₂ : Log} :
    Forward l (l₁ ++ l₂) ↔ Forward l l₁ ∧ Forward (l ++ l₁) l₂ := by
  induction l₁ generalizing l with
  | nil => simp [Forward]
  | cons e l₁ ih =>
      rw [List.cons_append, forward_cons, forward_cons, ih, and_assoc, List.append_assoc,
        List.singleton_append]

/-- The next instruction of a block, and the log around it. -/
theorem Log.split_at {l : Log} {b : Blk} {i : Instr} (h : (l.code b)[0]? = some i) :
    ∃ l₁ l₂, l = l₁ ++ (b, i) :: l₂ ∧ l₁.code b = [] := by
  induction l with
  | nil => simp at h
  | cons e l ih =>
      rcases e with ⟨b', i'⟩
      by_cases hb : b' = b
      · subst hb
        rw [Log.code_cons_self] at h
        rcases Option.some.inj h with rfl
        exact ⟨[], l, rfl, rfl⟩
      · rw [Log.code_cons_other hb] at h
        rcases ih h with ⟨l₁, l₂, rfl, hl₁⟩
        exact ⟨(b', i') :: l₁, l₂, rfl, by rwa [Log.code_cons_other hb]⟩

/-- A path that starts behind `l₁` in code that goes forward from there executes
its instructions in the order of the log. -/
theorem Trace.sublist {l₁ l₂ : Log} (hfwd : Forward l₁ l₂) {p q : Point} {is : List Instr}
    (h : Trace (l₁ ++ l₂) p is q) (hp : p.2 = (l₁.code p.1).length) : is.Sublist l₂.instrs := by
  induction is generalizing l₁ l₂ p with
  | nil => exact List.nil_sublist _
  | cons i is ih =>
      cases h with
      | @cons _ p' _ _ _ hi hq hrest =>
          -- the instruction is the first of its block behind `l₁`
          rw [Log.code_append, List.getElem?_append_right (Nat.le_of_eq hp.symm), hp,
            Nat.sub_self] at hi
          rcases Log.split_at hi with ⟨m, l₃, rfl, hm⟩
          have hsplit : l₁ ++ (m ++ (p.1, i) :: l₃) = (l₁ ++ m ++ [(p.1, i)]) ++ l₃ := by simp
          rw [hsplit] at hrest
          have hfwd' := (forward_append.mp hfwd).2
          have hp' : p'.2 = (Log.code (l₁ ++ m ++ [(p.1, i)]) p'.1).length := by
            unfold Instr.next at hq
            split_ifs at hq
            · rcases List.mem_map.mp hq with ⟨t, ht, rfl⟩
              rw [hfwd'.1 t ht]
              rfl
            · rcases List.mem_singleton.mp hq with rfl
              rw [Log.code_append, Log.code_append, hm, Log.code_cons_self, Log.code_nil, hp]
              simp
          have hsub := ih hfwd'.2 hrest hp'
          rw [Log.instrs_append]
          exact (List.Sublist.cons_cons i hsub).trans (List.sublist_append_right _ _)

/-- A run follows a path. -/
theorem Reaches.trace {W : World} {l : Log} {c c' : Config} (h : Reaches W l c c') :
    ∃ is, Trace l (c.blk, c.pos) is (c'.blk, c'.pos) := by
  induction h using Relation.ReflTransGen.head_induction_on with
  | refl => exact ⟨[], .nil _⟩
  | @head c c₁ hstep _ ih =>
      rcases ih with ⟨is, his⟩
      rcases Option.bind_eq_some_iff.mp hstep with ⟨i, hi, hrun⟩
      refine ⟨i :: is, .cons hi ?_ his⟩
      cases i with
      | op dst o =>
          rcases Option.map_eq_some_iff.mp hrun with ⟨v, _, rfl⟩
          exact List.mem_singleton.mpr rfl
      | phi dst inc =>
          rcases Option.map_eq_some_iff.mp hrun with ⟨v, _, rfl⟩
          exact List.mem_singleton.mpr rfl
      | call dst f args =>
          simp only [Instr.run] at hrun
          split at hrun
          · rcases Option.some.inj hrun with rfl
            exact List.mem_singleton.mpr rfl
          · rcases Option.some.inj hrun with rfl
            exact List.mem_singleton.mpr rfl
          · cases hrun
      | store ty v a =>
          rcases Option.map_eq_some_iff.mp hrun with ⟨v, _, rfl⟩
          exact List.mem_singleton.mpr rfl
      | memcpy d s n =>
          rcases Option.bind_eq_some_iff.mp hrun with ⟨d', _, hrun⟩
          rcases Option.bind_eq_some_iff.mp hrun with ⟨s', _, hrun⟩
          rcases Option.some.inj hrun with rfl
          exact List.mem_singleton.mpr rfl
      | memset d v n =>
          rcases Option.map_eq_some_iff.mp hrun with ⟨v, _, rfl⟩
          exact List.mem_singleton.mpr rfl
      | br b =>
          rcases Option.some.inj hrun with rfl
          exact List.mem_singleton.mpr rfl
      | condBr v t f =>
          rcases Option.map_eq_some_iff.mp hrun with ⟨x, _, rfl⟩
          by_cases hx : x = 0
          · rw [if_pos hx]
            exact List.mem_cons_of_mem _ (List.mem_singleton.mpr rfl)
          · rw [if_neg hx]
            exact List.mem_cons_self
      | switch n v => cases hrun
      | ret v => cases hrun
      | mark s =>
          rcases Option.some.inj hrun with rfl
          exact List.mem_singleton.mpr rfl

end Hlang.Ir
