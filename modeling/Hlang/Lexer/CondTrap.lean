import Hlang.Lexer.CondCycle

/-!
# Hlang.Lexer.CondTrap — the operations of a condition

`CondEval` hands a shift its count as it is, and divides the smallest integer by
minus one. A condition is evaluated without an operation that has no defined
result exactly if its tree has none, read with operations that always have one:
counts modulo 64, and a quotient that wraps.
-/

namespace Hlang.Lexer

/-! ## The meaning of a tree -/

/-- The value of an operator, wherever it is applied. -/
def opMeaning (p : P) (v r : I64) : I64 :=
  if (p = .slash || p = .percent) && r = 0 then 0 else opValue p v r

section Trap

variable (E : CondEnv)

/-- The value of a tree, macros opened. -/
inductive CondTree.Means : CondTree → I64 → Prop
  | val (v : I64) : Means (.val v) v
  | unary (p : P) {k : CondTree} {v : I64} (h : Means k v) : Means (.unary p k) (unaryValue p v)
  | bin (p : P) {l r : CondTree} {a b : I64} (hl : Means l a) (hr : Means r b) :
      Means (.bin p l r) (opMeaning p a b)
  | body {ts : List Token} {v : I64} (h : Means (condTree E ts) v) : Means (.body ts) v

/-- From left to right, the tree comes to the operator `p` with these operands. -/
inductive CondTree.Applies (p : P) (a b : I64) : CondTree → Prop
  | here {l r : CondTree} (hl : l.Means E a) (hr : r.Means E b) : Applies p a b (.bin p l r)
  | left {q : P} {l r : CondTree} (h : Applies p a b l) : Applies p a b (.bin q l r)
  | right {q : P} {l r : CondTree} {v : I64} (hl : l.Means E v) (h : Applies p a b r) :
      Applies p a b (.bin q l r)
  | unary {q : P} {k : CondTree} (h : Applies p a b k) : Applies p a b (.unary q k)
  | body {ts : List Token} (h : Applies p a b (condTree E ts)) : Applies p a b (.body ts)

/-- The tree comes to an operation without a defined result. -/
def CondTree.Undefined (t : CondTree) : Prop := ∃ p a b, t.Applies E p a b ∧ ¬ OpDefined p a b

variable {E}

/-! ## Running and meaning -/

/-- Operations without a defined result stop the program. -/
def CondEnv.Traps (E : CondEnv) : Prop := ∀ p v r, E.undefinedOp p v r = none

theorem applyValue_defined {p : P} {v r : I64} (h : OpDefined p v r) :
    CondEval.applyValue E p v r = .done (opMeaning p v r) := by
  unfold CondEval.applyValue CondEval.apply opMeaning
  rw [if_pos h]
  split_ifs
  · rfl
  · rfl

theorem applyValue_undefined (hE : E.Traps) {p : P} {v r : I64} (h : ¬ OpDefined p v r) :
    CondEval.applyValue E p v r = .trap := by
  have hzero : ((decide (p = .slash) || decide (p = .percent)) && decide (r = 0)) = false := by
    rw [Bool.and_eq_false_imp]
    intro hp
    rw [decide_eq_false_iff_not]
    rintro rfl
    rw [Bool.or_eq_true, decide_eq_true_eq, decide_eq_true_eq] at hp
    apply h
    rcases hp with rfl | rfl
    · exact fun hboth => absurd hboth.2 (by decide)
    · exact fun hboth => absurd hboth.2 (by decide)
  unfold CondEval.applyValue CondEval.apply
  simp only [hzero, Bool.false_eq_true, if_false, if_neg h]
  rw [hE p v r]
  rfl

section Runs

variable {sub : List Token → Run I64}

/-- What a run of a tree shows of its meaning, if the runs of the bodies do. -/
theorem CondTree.eval_meaning (hE : E.Traps)
    (hdone : ∀ ts v, sub ts = .done v → (condTree E ts).Means E v)
    (htrap : ∀ ts, sub ts = .trap → (condTree E ts).Undefined E) (t : CondTree) :
    (∀ v, t.eval E sub = .done v → t.Means E v) ∧ (t.eval E sub = .trap → t.Undefined E) := by
  induction t with
  | val v =>
      constructor
      · intro w hw
        rw [← (Run.done.inj hw)]
        exact .val v
      · exact fun h => by cases h
  | unary p k ih =>
      rw [eval]
      cases hk : k.eval E sub with
      | more => exact ⟨(fun _ h => by cases h), (fun h => by cases h)⟩
      | trap =>
          refine ⟨(fun _ h => by cases h), ?_⟩
          intro _
          rcases ih.2 hk with ⟨q, a, b, happ, hundef⟩
          exact ⟨q, a, b, happ.unary, hundef⟩
      | done w =>
          refine ⟨?_, (fun h => by cases h)⟩
          intro v hv
          rw [← Run.done.inj hv]
          exact .unary p (ih.1 w hk)
  | bin p l r ihl ihr =>
      rw [eval]
      cases hl : l.eval E sub with
      | more => exact ⟨(fun _ h => by cases h), (fun h => by cases h)⟩
      | trap =>
          refine ⟨(fun _ h => by cases h), ?_⟩
          intro _
          rcases ihl.2 hl with ⟨q, a, b, happ, hundef⟩
          exact ⟨q, a, b, happ.left, hundef⟩
      | done a =>
          have ha := ihl.1 a hl
          rw [Run.done_bind]
          cases hr : r.eval E sub with
          | more => exact ⟨(fun _ h => by cases h), (fun h => by cases h)⟩
          | trap =>
              refine ⟨(fun _ h => by cases h), ?_⟩
              intro _
              rcases ihr.2 hr with ⟨q, c, b, happ, hundef⟩
              exact ⟨q, c, b, .right ha happ, hundef⟩
          | done b =>
              have hb := ihr.1 b hr
              rw [Run.done_bind]
              by_cases hop : OpDefined p a b
              · rw [applyValue_defined hop]
                refine ⟨?_, (fun h => by cases h)⟩
                intro v hv
                rw [← Run.done.inj hv]
                exact .bin p ha hb
              · rw [applyValue_undefined hE hop]
                exact ⟨(fun _ h => by cases h), fun _ => ⟨p, a, b, .here ha hb, hop⟩⟩
  | body ts =>
      rw [eval]
      constructor
      · exact fun v hv => .body (hdone ts v hv)
      · intro h
        rcases htrap ts h with ⟨p, a, b, happ, hundef⟩
        exact ⟨p, a, b, happ.body, hundef⟩

end Runs

theorem condValue_meaning (hE : E.Traps) (n : Nat) :
    (∀ ts v, condValue E n ts = .done v → (condTree E ts).Means E v) ∧
    ∀ ts, condValue E n ts = .trap → (condTree E ts).Undefined E := by
  induction n with
  | zero => exact ⟨(fun _ _ h => nomatch h), (fun _ h => nomatch h)⟩
  | succ n ih =>
      have htree := fun ts => CondTree.eval_meaning hE ih.1 ih.2 (condTree E ts)
      constructor
      · intro ts v hv
        rw [condValue_succ] at hv
        exact (htree ts).1 v hv
      · intro ts hv
        rw [condValue_succ] at hv
        exact (htree ts).2 hv

/-- The runs of a tree. -/
def CondTree.at (E : CondEnv) (n : Nat) (t : CondTree) : Run I64 := t.eval E (condValue E n)

theorem CondTree.at_le (E : CondEnv) {m n : Nat} (hmn : m ≤ n) (t : CondTree) :
    (t.at E m).Le (t.at E n) :=
  t.eval_le (condValue_le E hmn)

theorem CondTree.at_of_le {m n : Nat} (hmn : m ≤ n) {t : CondTree} {x : Run I64}
    (h : t.at E m = x) (hx : x ≠ .more) : t.at E n = x := by
  rw [(t.at_le E hmn).eq (by rw [h]; exact hx), h]

section Nodes

variable {n : Nat} {p : P} {k l r : CondTree} {ts : List Token}

theorem CondTree.at_unary : (CondTree.unary p k).at E n = (k.at E n).map (unaryValue p) := rfl

theorem CondTree.at_body : (CondTree.body ts).at E (n + 1) = (condTree E ts).at E n :=
  condValue_succ E n ts

theorem CondTree.at_bin : (CondTree.bin p l r).at E n =
    (l.at E n).bind fun a => (r.at E n).bind fun b => CondEval.applyValue E p a b := rfl

theorem CondTree.trap_left (h : l.at E n = .trap) : (CondTree.bin p l r).at E n = .trap := by
  rw [at_bin, h]
  rfl

theorem CondTree.trap_right {a : I64} (hl : l.at E n = .done a) (h : r.at E n = .trap) :
    (CondTree.bin p l r).at E n = .trap := by
  rw [at_bin, hl, h]
  rfl

end Nodes

/-- The tree is evaluated to `v`, unless an operation stops the program before. -/
def CondTree.Runs (E : CondEnv) (t : CondTree) (v : I64) : Prop :=
  ∃ n, t.at E n = .done v ∨ t.at E n = .trap

/-- Two runs at one depth. -/
theorem CondTree.Runs.with {t u : CondTree} {v : I64} {x : Run I64} {m : Nat} (h : t.Runs E v)
    (hu : u.at E m = x) (hx : x ≠ .more) :
    ∃ n, (t.at E n = .done v ∨ t.at E n = .trap) ∧ u.at E n = x := by
  rcases h with ⟨k, h⟩
  refine ⟨max k m, ?_, at_of_le (Nat.le_max_right k m) hu hx⟩
  rcases h with h | h
  · exact Or.inl (at_of_le (Nat.le_max_left k m) h (fun h => nomatch h))
  · exact Or.inr (at_of_le (Nat.le_max_left k m) h (fun h => nomatch h))

/-- The operands of an operator, and then the operator. -/
theorem CondTree.Runs.bin (hE : E.Traps) {p : P} {l r : CondTree} {a b : I64} (hl : l.Runs E a)
    (hr : r.Runs E b) : ∃ n, (CondTree.bin p l r).at E n =
      (if OpDefined p a b then .done (opMeaning p a b) else .trap) ∨
      (CondTree.bin p l r).at E n = .trap := by
  rcases hr with ⟨m, hr | hr⟩
  · rcases hl.with hr (fun h => nomatch h) with ⟨n, hl | hl, hr⟩
    · refine ⟨n, Or.inl ?_⟩
      rw [at_bin, hl, hr, Run.done_bind, Run.done_bind]
      split_ifs with hop
      · exact applyValue_defined hop
      · exact applyValue_undefined hE hop
    · exact ⟨n, Or.inr (trap_left hl)⟩
  · rcases hl.with hr (fun h => nomatch h) with ⟨n, hl | hl, hr⟩
    · exact ⟨n, Or.inr (trap_right hl hr)⟩
    · exact ⟨n, Or.inr (trap_left hl)⟩

theorem CondTree.Means.runs (hE : E.Traps) {t : CondTree} {v : I64} (h : t.Means E v) :
    t.Runs E v := by
  induction h with
  | val v => exact ⟨0, Or.inl rfl⟩
  | @unary p k v _ ih =>
      rcases ih with ⟨n, h | h⟩
      · exact ⟨n, Or.inl (by rw [at_unary, h]; rfl)⟩
      · exact ⟨n, Or.inr (by rw [at_unary, h]; rfl)⟩
  | @bin p l r a b _ _ ihl ihr =>
      rcases CondTree.Runs.bin hE (p := p) ihl ihr with ⟨n, h | h⟩
      · refine ⟨n, ?_⟩
        rw [h]
        split_ifs
        · exact Or.inl rfl
        · exact Or.inr rfl
      · exact ⟨n, Or.inr h⟩
  | @body ts v _ ih =>
      rcases ih with ⟨n, h⟩
      refine ⟨n + 1, ?_⟩
      rw [at_body]
      exact h

/-- An operation without a defined result stops the program, if it is not stopped before. -/
theorem CondTree.Applies.traps (hE : E.Traps) {p : P} {a b : I64} {t : CondTree}
    (h : t.Applies E p a b) (hop : ¬ OpDefined p a b) : ∃ n, t.at E n = .trap := by
  induction h with
  | @here l r hl hr =>
      rcases CondTree.Runs.bin hE (p := p) (hl.runs hE) (hr.runs hE) with ⟨n, h | h⟩
      · exact ⟨n, by rw [h, if_neg hop]⟩
      · exact ⟨n, h⟩
  | @left q l r _ ih =>
      rcases ih with ⟨n, h⟩
      exact ⟨n, trap_left h⟩
  | @right q l r v hl _ ih =>
      rcases ih with ⟨m, h⟩
      rcases (hl.runs hE).with h (fun h => nomatch h) with ⟨n, hl | hl, hr⟩
      · exact ⟨n, trap_right hl hr⟩
      · exact ⟨n, trap_left hl⟩
  | @unary q k _ ih =>
      rcases ih with ⟨n, h⟩
      exact ⟨n, by rw [at_unary, h]; rfl⟩
  | @body ts _ ih =>
      rcases ih with ⟨n, h⟩
      exact ⟨n + 1, by rw [at_body]; exact h⟩

/-- A condition is stopped exactly if it comes to an operation without a defined result. -/
theorem condValue_trap_iff (hE : E.Traps) (ts : List Token) :
    (∃ n, condValue E n ts = .trap) ↔ (condTree E ts).Undefined E := by
  constructor
  · rintro ⟨n, hn⟩
    exact (condValue_meaning hE n).2 ts hn
  · rintro ⟨p, a, b, happ, hop⟩
    rcases happ.traps hE hop with ⟨n, h⟩
    refine ⟨n + 1, ?_⟩
    rw [condValue_succ]
    exact h

end Trap

/-- The environment in which operations without a defined result stop the program. -/
def CondEnv.stopping (M : MacroTable) (T : ℚ → I64) : CondEnv where
  macros := M
  undefinedOp := fun _ _ _ => none
  undefinedTrunc := T

/-- `evalCondExpr` makes no operation without a defined result exactly if its condition has
none. -/
theorem evalCondExpr_defined_iff (M : MacroTable) (T : ℚ → I64) (toks : List Token)
    (loc : SrcLoc) : (∀ n, evalCondExpr (.stopping M T) n toks loc ≠ .trap) ↔
      ∀ p a b, (condTree (.stopping M T) toks).Applies (.stopping M T) p a b →
        OpDefined p a b := by
  have hE : (CondEnv.stopping M T).Traps := fun _ _ _ => rfl
  have htrap := condValue_trap_iff hE toks
  by_cases htoks : toks = []
  · subst htoks
    refine iff_of_true (fun n h => nomatch h) ?_
    intro p a b happ
    exact nomatch happ
  · have hrun : ∀ n, evalCondExpr (.stopping M T) n toks loc = .trap ↔
        condValue (.stopping M T) n toks = .trap := by
      intro n
      unfold evalCondExpr condValue values
      rw [if_neg htoks]
      cases condEval (.stopping M T) n toks with
      | more => simp [Run.map]
      | trap => simp [Run.map]
      | done r => simp
    constructor
    · intro h p a b happ
      by_contra hop
      rcases htrap.mpr ⟨p, a, b, happ, hop⟩ with ⟨n, hn⟩
      exact h n ((hrun n).mpr hn)
    · intro h n hn
      rcases htrap.mp ⟨n, (hrun n).mp hn⟩ with ⟨p, a, b, happ, hop⟩
      exact hop (h p a b happ)

end Hlang.Lexer
