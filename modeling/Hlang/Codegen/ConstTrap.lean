import Hlang.Codegen.FoldInt
import Hlang.Lexer.CondTrap

/-!
# Hlang.Codegen.ConstTrap — the operations of the compile-time evaluators

`evalConst` and `evalConstI64` do not divide by zero and mask the count of a
shift; like `CondEval` they divide the smallest integer by minus one. They make
no operation without a defined result exactly if the expression has none.
-/

namespace Hlang.Codegen

open Ir

namespace Evaluator

variable (Γ : Env) (E : Evaluator)

/-- The binary operators that the evaluator knows. -/
def fold : Evaluator → P → I64 → I64 → Fold I64
  | codegen => foldBinary
  | parser _ => foldArith

/-- The evaluator looks into the operand of a prefix or postfix operator. -/
def entersUnary : Evaluator → Bool → Bool
  | codegen, pre => pre
  | parser _, _ => true

/-- The evaluator looks into the operand of a cast. -/
def entersCast : Evaluator → Bool
  | codegen => true
  | parser _ => false

/-- From left to right, with `V` for the values of operands, the evaluator comes to the operator
`p` with these operands. -/
inductive Comes (V : Expr → I64 → Prop) (p : P) (i j : I64) : Expr → Prop
  | here {n : Node} {a c : Expr} (ha : V a i) (hc : V c j) : Comes V p i j (.binary n p a c)
  | left {n : Node} {q : P} {a c : Expr} (h : Comes V p i j a) : Comes V p i j (.binary n q a c)
  | right {n : Node} {q : P} {a c : Expr} {x : I64} (ha : V a x) (h : Comes V p i j c) :
      Comes V p i j (.binary n q a c)
  | unary {n : Node} {q : P} {pre : Bool} {k : Expr} (hpre : E.entersUnary pre = true)
      (h : Comes V p i j k) : Comes V p i j (.unary n q pre k)
  | cast {n : Node} {t : Ty} {k : Expr} (hE : E.entersCast = true) (h : Comes V p i j k) :
      Comes V p i j (.cast n k t)

/-- What the code does with the operands of an operator: it does not divide by zero, and masks
the count of a shift. -/
def machineOp (p : P) (i j : I64) : Option (P × I64 × I64) :=
  match p with
  | .slash | .percent => if j = 0 then none else some (p, i, j)
  | .shl | .shr => some (p, i, j &&& 63)
  | _ => some (p, i, j)

/-- The operation has a result: no divisor zero, no overflowing quotient, no count outside
0..63. -/
def OpSafe (op : P × I64 × I64) : Prop :=
  (op.1 = .slash ∨ op.1 = .percent → op.2.2 ≠ 0) ∧ Lexer.OpDefined op.1 op.2.1 op.2.2

/-- Every operation that the evaluator makes for `e` has a result. -/
def Safe (e : Expr) : Prop :=
  ∀ p i j, E.Comes (fun e v => E.eval Γ e = .ok v) p i j e → ∀ op ∈ machineOp p i j, OpSafe op

/-- The value of an operator, with a quotient that wraps. -/
def opMeaning (p : P) (i j : I64) : Option I64 :=
  match E.fold p i j with
  | .ok v => some v
  | .error .notConst => none
  | .error .undefined => some (Lexer.opMeaning p i j)

/-- The expression is neither an operator nor a cast. -/
def IsLeaf : Expr → Prop
  | .unary _ _ _ _ | .binary _ _ _ _ | .cast _ _ _ => False
  | _ => True

/-- The value of an expression, with quotients that wrap. -/
inductive Means : Expr → I64 → Prop
  | leaf {e : Expr} {v : I64} (he : IsLeaf e) (h : E.eval Γ e = .ok v) : Means e v
  | unary {n : Node} {p : P} {pre : Bool} {k : Expr} {v w : I64} (hpre : E.entersUnary pre = true)
      (h : Means k v) (hw : foldUnary p v = .ok w) : Means (.unary n p pre k) w
  | binary {n : Node} {p : P} {a c : Expr} {i j w : I64} (ha : Means a i) (hc : Means c j)
      (hw : E.opMeaning p i j = some w) : Means (.binary n p a c) w
  | cast {n : Node} {t : Ty} {k : Expr} {v : I64} (hE : E.entersCast = true) (h : Means k v) :
      Means (.cast n k t) (foldCast t v)

/-- A division or a remainder of the smallest integer by minus one. -/
def Overflows (p : P) (i j : I64) : Prop :=
  (p = .slash ∨ p = .percent) ∧ i = BitVec.intMin 64 ∧ j = -1

end Evaluator

/-! ## One operator -/

section Operator

open Evaluator

variable {E : Evaluator} {p : P} {i j v : I64}

theorem forall_mem_some {α : Type} {a : α} {q : α → Prop} : (∀ x ∈ some a, q x) ↔ q a := by
  constructor
  · exact fun h => h a rfl
  · rintro h x hx
    rwa [← Option.some.inj hx]

theorem foldArith_undefined_iff : foldArith p i j = .error .undefined ↔ Overflows p i j := by
  have hdiv : ∀ op : I64 → I64 → I64, foldDiv op i j = .error .undefined ↔
      i = BitVec.intMin 64 ∧ j = -1 := by
    intro op
    unfold foldDiv
    split_ifs with hzero hover
    · refine iff_of_false (fun h => nomatch h) ?_
      rintro ⟨-, rfl⟩
      exact absurd hzero (by decide)
    · exact iff_of_true rfl hover
    · exact iff_of_false (fun h => nomatch h) hover
  unfold Overflows
  cases p <;> simp [foldArith, hdiv]

theorem fold_undefined_iff : E.fold p i j = .error .undefined ↔ Overflows p i j := by
  cases E with
  | parser H => exact foldArith_undefined_iff
  | codegen =>
      show foldBinary p i j = .error .undefined ↔ Overflows p i j
      by_cases hlogic : ∃ w, foldBinary p i j = .ok w ∧ p ≠ .slash ∧ p ≠ .percent
      · rcases hlogic with ⟨w, hw, hslash, hpercent⟩
        rw [hw]
        refine iff_of_false (fun h => nomatch h) ?_
        rintro ⟨hp | hp, -⟩
        · exact hslash hp
        · exact hpercent hp
      · have harith : foldBinary p i j = foldArith p i j := by
          cases p <;> first | rfl | exact absurd ⟨_, rfl, by decide, by decide⟩ hlogic
        rw [harith]
        exact foldArith_undefined_iff

theorem opMeaning_of_fold (h : E.fold p i j = .ok v) : E.opMeaning p i j = some v := by
  unfold Evaluator.opMeaning
  rw [h]

/-- An operation that the evaluator makes is safe unless it overflows. -/
theorem machineOp_safe_iff : (∀ op ∈ machineOp p i j, OpSafe op) ↔ ¬ Overflows p i j := by
  have hmask : (j &&& 63).toNat < 64 := by
    rw [BitVec.toNat_and]
    exact Nat.lt_of_le_of_lt Nat.and_le_right (by decide)
  have hdiv : ∀ q, q = .slash ∨ q = .percent →
      ((∀ op ∈ (if j = 0 then none else some (q, i, j)), OpSafe op) ↔
        ¬ (i = BitVec.intMin 64 ∧ j = -1)) := by
    intro q hq
    split_ifs with hzero
    · refine iff_of_true (fun op h => nomatch h) ?_
      rintro ⟨-, rfl⟩
      exact absurd hzero (by decide)
    · rw [forall_mem_some]
      have hsafe : OpSafe (q, i, j) ↔ Lexer.OpDefined q i j :=
        ⟨fun h => h.2, fun h => ⟨fun _ => hzero, h⟩⟩
      rw [hsafe]
      rcases hq with rfl | rfl
      · exact Iff.rfl
      · exact Iff.rfl
  have hother : ∀ (q : P) (r : I64), ¬ (q = .slash ∨ q = .percent) → Lexer.OpDefined q i r →
      ∀ op ∈ some (q, i, r), OpSafe op := by
    intro q r hq hdef
    rw [forall_mem_some]
    exact ⟨fun h => absurd h hq, hdef⟩
  unfold Overflows
  by_cases hp : p = .slash ∨ p = .percent
  · have hmachine : machineOp p i j = if j = 0 then none else some (p, i, j) := by
      rcases hp with rfl | rfl <;> rfl
    rw [hmachine, hdiv p hp]
    exact not_congr ⟨fun h => ⟨hp, h⟩, fun h => h.2⟩
  · refine iff_of_true ?_ (fun h => hp h.1)
    by_cases hshift : p = .shl ∨ p = .shr
    · rcases hshift with rfl | rfl
      · exact hother _ _ (by decide) hmask
      · exact hother _ _ (by decide) hmask
    · rw [not_or] at hp hshift
      have hmachine : machineOp p i j = some (p, i, j) := by
        cases p <;> first | rfl | exact absurd rfl hp.1 | exact absurd rfl hp.2 |
          exact absurd rfl hshift.1 | exact absurd rfl hshift.2
      rw [hmachine]
      apply hother _ _ (not_or.mpr hp)
      cases p <;> trivial

end Operator

/-! ## Expressions -/

section Tree

open Evaluator

variable {Γ : Env} {E : Evaluator}

theorem eval_unary_eq (n : Node) (p : P) (pre : Bool) (k : Expr) :
    E.eval Γ (.unary n p pre k) =
      if E.entersUnary pre then E.eval Γ k >>= foldUnary p else .error .notConst := by
  cases E <;> rfl

theorem eval_binary_eq (n : Node) (p : P) (a c : Expr) :
    E.eval Γ (.binary n p a c) =
      E.eval Γ a >>= fun i => E.eval Γ c >>= fun j => E.fold p i j := by
  cases E <;> rfl

theorem eval_cast_eq (n : Node) (t : Ty) (k : Expr) :
    E.eval Γ (.cast n k t) =
      if E.entersCast then E.eval Γ k >>= fun v => pure (foldCast t v) else .error .notConst := by
  cases E <;> rfl

/-- How the evaluators see an expression. -/
inductive FoldTree : Expr → Prop
  | leaf {e : Expr} (he : IsLeaf e) : FoldTree e
  | unary (n : Node) (p : P) (pre : Bool) {k : Expr} (hk : FoldTree k) :
      FoldTree (.unary n p pre k)
  | binary (n : Node) (p : P) {a c : Expr} (ha : FoldTree a) (hc : FoldTree c) :
      FoldTree (.binary n p a c)
  | cast (n : Node) (t : Ty) {k : Expr} (hk : FoldTree k) : FoldTree (.cast n k t)

theorem foldTree : ∀ e : Expr, FoldTree e
  | .unary n p pre k => .unary n p pre (foldTree k)
  | .binary n p a c => .binary n p (foldTree a) (foldTree c)
  | .cast n k t => .cast n t (foldTree k)
  | .intLit _ _ | .floatLit _ _ | .strLit _ _ | .charLit _ _ | .ident _ _ | .chainCmp _ _ _
  | .assign _ _ _ _ | .call _ _ _ | .index _ _ _ | .member _ _ _ _ | .sizeofType _ _
  | .sizeofExpr _ _ | .offsetOf _ _ _ _ | .lastClass _ | .initList _ _ => .leaf trivial

/-- The value that an evaluator computes is the meaning of the expression. -/
theorem means_of_eval {e : Expr} {v : I64} (h : E.eval Γ e = .ok v) : E.Means Γ e v := by
  induction foldTree e generalizing v with
  | leaf he => exact .leaf he h
  | unary n p pre hk ih =>
      rw [eval_unary_eq] at h
      split_ifs at h with hpre
      rcases Fallible.bind_eq_ok.mp h with ⟨w, hw, hv⟩
      exact .unary hpre (ih hw) hv
  | binary n p ha hc iha ihc =>
      rw [eval_binary_eq] at h
      rcases Fallible.bind_eq_ok.mp h with ⟨i, hi, h⟩
      rcases Fallible.bind_eq_ok.mp h with ⟨j, hj, hv⟩
      exact .binary (iha hi) (ihc hj) (opMeaning_of_fold hv)
  | cast n t hk ih =>
      rw [eval_cast_eq] at h
      split_ifs at h with hE
      rcases Fallible.bind_eq_ok.mp h with ⟨w, hw, hv⟩
      rw [← Fallible.pure_eq_ok.mp hv]
      exact .cast hE (ih hw)

/-- The evaluator itself comes to an overflowing quotient. -/
def Evaluator.Overflowing (Γ : Env) (E : Evaluator) (e : Expr) : Prop :=
  ∃ p i j, E.Comes (fun e v => E.eval Γ e = .ok v) p i j e ∧ Overflows p i j

/-- An expression with a meaning is folded to it, unless a quotient overflows before. -/
theorem Evaluator.Means.folds {e : Expr} {v : I64} (h : E.Means Γ e v) :
    E.eval Γ e = .ok v ∨ E.Overflowing Γ e := by
  induction h with
  | leaf _ h => exact Or.inl h
  | @unary n p pre k v w hpre _ hw ih =>
      rcases ih with ih | ⟨q, i, j, hcome, hover⟩
      · left
        rw [eval_unary_eq, if_pos hpre, ih]
        exact hw
      · exact Or.inr ⟨q, i, j, .unary hpre hcome, hover⟩
  | @binary n p a c i j w _ _ hw iha ihc =>
      rcases iha with iha | ⟨q, x, y, hcome, hover⟩
      · rcases ihc with ihc | ⟨q, x, y, hcome, hover⟩
        · -- both operands are folded
          have heval : E.eval Γ (.binary n p a c) = E.fold p i j := by
            rw [eval_binary_eq, iha, ihc]
            rfl
          unfold Evaluator.opMeaning at hw
          cases hfold : E.fold p i j with
          | ok u =>
              rw [hfold] at hw heval
              left
              rw [heval, Option.some.inj hw]
          | error err =>
              cases err with
              | notConst =>
                  rw [hfold] at hw
                  exact nomatch hw
              | undefined => exact Or.inr ⟨p, i, j, .here iha ihc, fold_undefined_iff.mp hfold⟩
        · exact Or.inr ⟨q, x, y, .right iha hcome, hover⟩
      · exact Or.inr ⟨q, x, y, .left hcome, hover⟩
  | @cast n t k v hE _ ih =>
      rcases ih with ih | ⟨q, i, j, hcome, hover⟩
      · left
        rw [eval_cast_eq, if_pos hE, ih]
        rfl
      · exact Or.inr ⟨q, i, j, .cast hE hcome, hover⟩

/-- Where the expression comes to an overflowing quotient, the evaluator comes to one. -/
theorem Evaluator.Comes.folds {e : Expr} {p : P} {i j : I64} (h : E.Comes (E.Means Γ) p i j e)
    (hover : Overflows p i j) : E.Overflowing Γ e := by
  induction h with
  | here ha hc =>
      rcases ha.folds with ha | ha
      · rcases hc.folds with hc | ⟨q, x, y, hcome, hover⟩
        · exact ⟨p, i, j, .here ha hc, hover⟩
        · exact ⟨q, x, y, .right ha hcome, hover⟩
      · rcases ha with ⟨q, x, y, hcome, hover⟩
        exact ⟨q, x, y, .left hcome, hover⟩
  | left _ ih =>
      rcases ih with ⟨q, x, y, hcome, hover⟩
      exact ⟨q, x, y, .left hcome, hover⟩
  | right ha _ ih =>
      rcases ha.folds with ha | ⟨q, x, y, hcome, hover⟩
      · rcases ih with ⟨q, x, y, hcome, hover⟩
        exact ⟨q, x, y, .right ha hcome, hover⟩
      · exact ⟨q, x, y, .left hcome, hover⟩
  | unary hpre _ ih =>
      rcases ih with ⟨q, x, y, hcome, hover⟩
      exact ⟨q, x, y, .unary hpre hcome, hover⟩
  | cast hE _ ih =>
      rcases ih with ⟨q, x, y, hcome, hover⟩
      exact ⟨q, x, y, .cast hE hcome, hover⟩

/-- With more values an evaluator comes to more operators. -/
theorem Evaluator.Comes.mono {V W : Expr → I64 → Prop} (hVW : ∀ e v, V e v → W e v) {e : Expr}
    {p : P} {i j : I64} (h : E.Comes V p i j e) : E.Comes W p i j e := by
  induction h with
  | here ha hc => exact .here (hVW _ _ ha) (hVW _ _ hc)
  | left _ ih => exact .left ih
  | right ha _ ih => exact .right (hVW _ _ ha) ih
  | unary hpre _ ih => exact .unary hpre ih
  | cast hE _ ih => exact .cast hE ih

theorem Evaluator.safe_iff (Γ : Env) (E : Evaluator) (e : Expr) :
    E.Safe Γ e ↔ ∀ p i j, E.Comes (E.Means Γ) p i j e → ¬ Overflows p i j := by
  have hsafe : E.Safe Γ e ↔ ¬ E.Overflowing Γ e := by
    unfold Evaluator.Safe Evaluator.Overflowing
    simp only [machineOp_safe_iff, not_exists, not_and]
  rw [hsafe]
  constructor
  · intro h p i j hcome hover
    exact h (hcome.folds hover)
  · rintro h ⟨p, i, j, hcome, hover⟩
    exact h p i j (hcome.mono fun _ _ => means_of_eval) hover

end Tree

/-! ## The three evaluators -/

end Hlang.Codegen
