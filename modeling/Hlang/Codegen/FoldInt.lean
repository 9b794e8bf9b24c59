import Hlang.Codegen.Constant
import Hlang.Lib.Fallible

/-!
# Hlang.Codegen.FoldInt — folding against running, on integers

The two compile-time evaluators have no types, so they fold with the signed
operators; the emitted code chooses by the static types of the operands. On
every part of an integer expression the folded value is the value the code
computes exactly if the operators agree on the operands of each node.
-/

namespace Hlang.Codegen

open Ir

/-! ## The meaning of folding -/

/-- The two compile-time evaluators; the parser's runs while class objects may
still be under construction. -/
inductive Evaluator where
  | codegen
  | parser (H : Heap)

/-- The class objects an evaluator sees. -/
def Evaluator.heap (Γ : Env) : Evaluator → Heap
  | .codegen => Γ.heap
  | .parser H => H

def Evaluator.eval (Γ : Env) : Evaluator → Expr → Fold I64
  | .codegen => Γ.evalConst
  | .parser H => evalConstI64 H

/-- Integer expressions without variables. -/
inductive IntTree : Expr → Prop where
  | intLit (n : Node) (v : I64) : IntTree (.intLit n v)
  | charLit (n : Node) (v : I64) : IntTree (.charLit n v)
  | sizeofType (n : Node) (t : Ty) : IntTree (.sizeofType n t)
  | offsetOf (n : Node) (c m : String) (r : Option ClassId) : IntTree (.offsetOf n c m r)
  | cast (n : Node) {k : Expr} (size : Nat) (uns : Bool) (h : IntTree k) :
      IntTree (.cast n k (.int size uns))
  | unary (n : Node) {p : P} {k : Expr} (hp : isUnary p) (h : IntTree k) :
      IntTree (.unary n p true k)
  | arith (n : Node) {p : P} {a c : Expr} (hp : isArith p) (ha : IntTree a) (hc : IntTree c) :
      IntTree (.binary n p a c)
  | logic (n : Node) {p : P} {a c : Expr} (hp : isLogic p) (ha : IntTree a) (hc : IntTree c) :
      IntTree (.binary n p a c)

/-- If the evaluator folds `e`, then its code computes the folded value, wherever
the operations of `e` are defined at run time. -/
def FoldAgrees (Γ : Env) (E : Evaluator) (e : Expr) : Prop :=
  ∀ v, E.eval Γ e = .ok v → (Γ.rtVal e).isSome → Γ.CodeGives e (.int v)

/-! ## Where the operators agree -/

/-- The signed operator that folds `i op j` and the one that the types of the
operands choose have the same result; an exponent is not negative. -/
def ArithOk (op : P) (uns unsLeft : Bool) (i j : I64) : Prop :=
  match op with
  | .slash => uns = true → i.udiv j = i.sdiv j
  | .percent => uns = true → i.umod j = i.srem j
  | .shr => unsLeft = true → i >>> (j &&& 63).toNat = i.sshiftRight (j &&& 63).toNat
  | .pow => j.slt 0 = false
  | _ => True

/-- The condition at the node of `e`, on the values of its operands; a `sizeof` is
that of a class whose size no longer changes. -/
def NodeOk (Γ : Env) (H : Heap) : Expr → Prop
  | .sizeofType _ t => t.size H = Γ.size t
  | .binary _ p a c => ∀ i j, Γ.rtVal a = some (.int i) → Γ.rtVal c = some (.int j) →
      ArithOk p (isU64 (rtType a) || isU64 (rtType c)) (isU64 (rtType a)) i j
  | _ => True

/-! ## Casts -/

theorem getLsbD_lowBits (bits i : Nat) (v : I64) :
    (lowBits bits v).getLsbD i = (decide (i < bits) && v.getLsbD i) := by
  unfold lowBits
  rw [BitVec.getLsbD_setWidth, BitVec.getLsbD_setWidth]
  by_cases hi : i < 64
  · simp [hi]
  · simp [hi, BitVec.getLsbD_of_ge v i (Nat.le_of_not_lt hi)]

theorem getLsbD_mask {bits i : Nat} (h : bits < 64) :
    (BitVec.allOnes 64 >>> (64 - bits)).getLsbD i = decide (i < bits) := by
  rw [BitVec.getLsbD_ushiftRight, BitVec.getLsbD_allOnes]
  have hlt : 64 - bits + i < 64 ↔ i < bits := by omega
  simp only [hlt]

theorem and_mask {bits : Nat} (h : bits < 64) (v : I64) :
    v &&& BitVec.allOnes 64 >>> (64 - bits) = lowBits bits v := by
  apply BitVec.eq_of_getLsbD_eq
  intro i hi
  rw [getLsbD_lowBits, BitVec.getLsbD_and, getLsbD_mask h, Bool.and_comm]

theorem lowBits_shift {bits : Nat} (h : 0 < bits) (h' : bits < 64) (v : I64) :
    lowBits bits v >>> (bits - 1) ≠ 0 ↔ v.getLsbD (bits - 1) = true := by
  constructor
  · intro hne
    by_contra hbit
    apply hne
    apply BitVec.eq_of_getLsbD_eq
    intro i hi
    rw [BitVec.getLsbD_ushiftRight, BitVec.ofNat_eq_ofNat, BitVec.getLsbD_zero]
    cases i with
    | zero =>
        rw [Nat.add_zero, getLsbD_lowBits, Bool.eq_false_of_not_eq_true hbit,
          Bool.and_false]
    | succ i =>
        have hge : ¬bits - 1 + (i + 1) < bits := by omega
        rw [getLsbD_lowBits, decide_eq_false hge, Bool.false_and]
  · intro hbit heq
    have h0 : (lowBits bits v >>> (bits - 1)).getLsbD 0 = true := by
      rw [BitVec.getLsbD_ushiftRight, Nat.add_zero, getLsbD_lowBits, hbit]
      simp [h]
    rw [heq] at h0
    simp at h0

theorem signBits_eq {bits : Nat} (h : 0 < bits) (h' : bits < 64) (v : I64) :
    signBits bits v = if v.getLsbD (bits - 1) = true then
      lowBits bits v ||| ~~~(BitVec.allOnes 64 >>> (64 - bits)) else lowBits bits v := by
  apply BitVec.eq_of_getLsbD_eq
  intro i hi
  have hmsb : (v.setWidth bits).msb = v.getLsbD (bits - 1) := by
    have hlast : bits - 1 < bits := by omega
    rw [BitVec.msb_eq_getLsbD_last, BitVec.getLsbD_setWidth, decide_eq_true hlast, Bool.true_and]
  unfold signBits
  rw [BitVec.getLsbD_signExtend, hmsb, BitVec.getLsbD_setWidth, decide_eq_true hi, Bool.true_and]
  by_cases hb : v.getLsbD (bits - 1) = true
  · rw [if_pos hb, hb, BitVec.getLsbD_or, BitVec.getLsbD_not, getLsbD_mask h',
      getLsbD_lowBits]
    by_cases hlt : i < bits <;> simp [hlt, hi]
  · rw [if_neg hb, getLsbD_lowBits, Bool.eq_false_of_not_eq_true hb]
    by_cases hlt : i < bits <;> simp [hlt]

theorem foldCast_int (n : Nat) (uns : Bool) (v : I64) :
    foldCast (.int n uns) v = castInt n uns v := by
  unfold foldCast castInt
  by_cases hn : 0 < n ∧ n < 8
  · have hpos : 0 < n * 8 := by omega
    have hlt : n * 8 < 64 := by omega
    simp only [if_pos hn, and_mask hlt]
    cases uns with
    | true => rfl
    | false =>
        simp only [Bool.not_false, Bool.true_and, decide_eq_true_eq, lowBits_shift hpos hlt]
        rw [if_neg Bool.false_ne_true, signBits_eq hpos hlt]
  · simp only [if_neg hn]
/-! ## The evaluators, node by node -/

section

variable {Γ : Env} {E : Evaluator} {e k a c : Expr} {p : P} {v : I64}

theorem foldBinary_of_foldArith {i j : I64} (h : foldArith p i j = .ok v) :
    foldBinary p i j = .ok v := by
  cases p <;> first | exact h | cases h

theorem eval_cast {n : Node} {t : Ty} (h : E.eval Γ (.cast n k t) = .ok v) :
    ∃ i, E.eval Γ k = .ok i ∧ v = foldCast t i := by
  cases E with
  | codegen =>
      rcases Fallible.bind_eq_ok.mp h with ⟨i, hi, hv⟩
      exact ⟨i, hi, (Fallible.pure_eq_ok.mp hv).symm⟩
  | parser H => cases h

theorem eval_unary {n : Node} (h : E.eval Γ (.unary n p true k) = .ok v) :
    ∃ i, E.eval Γ k = .ok i ∧ foldUnary p i = .ok v := by
  cases E with
  | codegen => exact Fallible.bind_eq_ok.mp h
  | parser H => exact Fallible.bind_eq_ok.mp h

theorem eval_binary {n : Node} (h : E.eval Γ (.binary n p a c) = .ok v) :
    ∃ i j, E.eval Γ a = .ok i ∧ E.eval Γ c = .ok j ∧ foldBinary p i j = .ok v := by
  cases E with
  | codegen =>
      rcases Fallible.bind_eq_ok.mp h with ⟨i, hi, h⟩
      rcases Fallible.bind_eq_ok.mp h with ⟨j, hj, h⟩
      exact ⟨i, j, hi, hj, h⟩
  | parser H =>
      rcases Fallible.bind_eq_ok.mp h with ⟨i, hi, h⟩
      rcases Fallible.bind_eq_ok.mp h with ⟨j, hj, h⟩
      exact ⟨i, j, hi, hj, foldBinary_of_foldArith h⟩

/-- What folds has no missing member. -/
theorem IntTree.constant (h : IntTree e) (hv : E.eval Γ e = .ok v) : Constant Γ e := by
  induction h generalizing v with
  | intLit n i => exact .intLit n i
  | charLit n i => exact .charLit n i
  | sizeofType n t => exact .sizeofType n t
  | offsetOf n c m r =>
      cases E with
      | codegen => exact .offsetOf n hv
      | parser H => cases hv
  | cast n size uns _ ih =>
      rcases eval_cast hv with ⟨i, hi, _⟩
      exact .cast n size uns (ih hi)
  | unary n hp _ ih =>
      rcases eval_unary hv with ⟨i, hi, _⟩
      exact .unary n hp (ih hi)
  | arith n hp _ _ iha ihc =>
      rcases eval_binary hv with ⟨i, j, hi, hj, _⟩
      exact .arith n hp (iha hi) (ihc hj)
  | logic n hp _ _ iha ihc =>
      rcases eval_binary hv with ⟨i, j, hi, hj, _⟩
      exact .logic n hp (iha hi) (ihc hj)

theorem IntTree.rtType_isF64 (h : IntTree e) : (rtType e).isF64 = false := by
  induction h with
  | unary n hp _ ih => exact unaryTy_isF64 ih
  | arith n hp _ _ iha ihc =>
      unfold rtType
      rw [if_pos hp]
      exact arithTy_isF64 iha ihc
  | logic n hp _ _ _ _ =>
      unfold rtType
      rw [if_neg (not_isArith hp)]
      rfl
  | _ => rfl

/-! ## Folding agrees with running -/

/-- The value at run time is the folded one. -/
def ValueAgrees (Γ : Env) (E : Evaluator) (e : Expr) : Prop :=
  ∀ v w, E.eval Γ e = .ok v → Γ.rtVal e = some w → w = .int v

/-- Agreement of the code is agreement of the value. -/
theorem foldAgrees_iff_value (h : Constant Γ e) : FoldAgrees Γ E e ↔ ValueAgrees Γ E e := by
  have hcode := h.computes
  constructor
  · intro hagree v w hv hw
    rw [hw] at hcode
    exact hcode.codeGives.unique (hagree v hv (by rw [hw]; rfl))
  · intro hagree v hv hdef
    rcases Option.isSome_iff_exists.mp hdef with ⟨w, hw⟩
    rw [hw] at hcode
    rw [← hagree v w hv hw]
    exact hcode.codeGives

/-! ## One node -/

theorem powLoop_eq (n : Nat) (r b : I64) : powLoop n r b = r * b ^ n := by
  induction n generalizing r with
  | zero => simp [powLoop]
  | succ n ih => rw [powLoop, ih, pow_succ', mul_assoc]

/-- The two powers differ on every negative exponent: 1 against 0. -/
theorem foldPow_eq_iff (i j : I64) : Runtime.hcPowI64 i j = foldPow i j ↔ j.slt 0 = false := by
  unfold foldPow
  rw [powLoop_eq, one_mul]
  cases hj : j.slt 0 with
  | false =>
      have hnat : j.toInt.toNat = j.toNat := by
        have hnonneg : ¬j.toInt < 0 := by
          simpa [BitVec.slt] using hj
        rw [BitVec.toInt_eq_toNat_cond] at hnonneg ⊢
        split_ifs at hnonneg ⊢ with hlt
        · rfl
        · omega
      rw [Runtime.hcPowI64_eq hj, hnat]
      simp
  | true =>
      have hneg : j.toInt < 0 := by
        simpa [BitVec.slt] using hj
      rw [Runtime.hcPowI64_neg hj, Int.toNat_of_nonpos (Int.le_of_lt hneg), pow_zero]
      decide

theorem foldDiv_ok {op : I64 → I64 → I64} {i j : I64} (h : foldDiv op i j = .ok v) :
    j ≠ 0 ∧ ¬(i = BitVec.intMin 64 ∧ j = -1) ∧ v = op i j := by
  unfold foldDiv at h
  split_ifs at h with h0 hmin
  exact ⟨h0, hmin, (Except.ok.inj h).symm⟩

/-- An operator on folded operands. -/
theorem intOp_eq_iff {uns unsLeft : Bool} {i j w : I64} (hv : foldArith p i j = .ok v)
    (hw : intOp p uns unsLeft i j = some w) : w = v ↔ ArithOk p uns unsLeft i j := by
  cases p with
  | slash =>
      rcases foldDiv_ok hv with ⟨h0, hmin, rfl⟩
      cases uns with
      | true =>
          rcases Option.some.inj ((if_neg h0).symm.trans hw) with rfl
          exact ⟨fun h _ => h, fun h => h rfl⟩
      | false =>
          rcases Option.some.inj ((if_neg (not_or.mpr ⟨h0, hmin⟩)).symm.trans hw) with rfl
          exact ⟨fun _ h => absurd h Bool.false_ne_true, fun _ => rfl⟩
  | percent =>
      rcases foldDiv_ok hv with ⟨h0, hmin, rfl⟩
      cases uns with
      | true =>
          rcases Option.some.inj ((if_neg h0).symm.trans hw) with rfl
          exact ⟨fun h _ => h, fun h => h rfl⟩
      | false =>
          rcases Option.some.inj ((if_neg (not_or.mpr ⟨h0, hmin⟩)).symm.trans hw) with rfl
          exact ⟨fun _ h => absurd h Bool.false_ne_true, fun _ => rfl⟩
  | shr =>
      rcases Option.some.inj hw with rfl
      rcases Except.ok.inj hv with rfl
      cases unsLeft with
      | true => exact ⟨fun h _ => h, fun h => h rfl⟩
      | false => exact ⟨fun _ h => absurd h Bool.false_ne_true, fun _ => rfl⟩
  | pow =>
      rcases Option.some.inj hw with rfl
      rcases Except.ok.inj hv with rfl
      exact foldPow_eq_iff i j
  | plus | minus | star | amp | pipe | caret | shl =>
      rcases Option.some.inj hw with rfl
      rcases Except.ok.inj hv with rfl
      exact ⟨fun _ => trivial, fun _ => rfl⟩
  | _ => cases hv

/-- `arith` on operands that are not doubles. -/
theorem arithVal_int {ta tc : Ty} (ha : ta.isF64 = false) (hc : tc.isF64 = false) (i j : I64) :
    arithVal p ta tc (.int i) (.int j) =
      (intOp p (isU64 ta || isU64 tc) (isU64 ta) i j).map .int := by
  unfold arithVal
  rw [ha, hc]
  rfl

theorem foldBinary_arith (hp : isArith p) (i j : I64) : foldBinary p i j = foldArith p i j := by
  cases p <;> first | rfl | exact absurd hp (by decide)

/-- What folds is defined at run time. -/
theorem intOp_defined {i j : I64} (hv : foldArith p i j = .ok v) (uns unsLeft : Bool) :
    ∃ w, intOp p uns unsLeft i j = some w := by
  cases p with
  | slash | percent =>
      rcases foldDiv_ok hv with ⟨h0, hmin, _⟩
      cases uns with
      | true => exact ⟨_, if_neg h0⟩
      | false => exact ⟨_, if_neg (not_or.mpr ⟨h0, hmin⟩)⟩
  | plus | minus | star | amp | pipe | caret | shl | shr | pow => exact ⟨_, rfl⟩
  | _ => cases hv

/-- An operator with a truth value, on operands that are the folded ones where
they are evaluated. -/
theorem logicVal_eq (hp : isLogic p) {ta tc : Ty} (ha : ta.isF64 = false) (hc : tc.isF64 = false)
    {va vc : Option Val} {i j : I64} {w : Val} (hi : ∀ x, va = some x → x = .int i)
    (hj : ∀ y, vc = some y → y = .int j) (hv : foldBinary p i j = .ok v)
    (hw : logicVal p ta tc va vc = some w) : w = .int v := by
  cases va with
  | none => cases p <;> first | exact absurd hp (by decide) | cases hw
  | some x =>
      rcases hi x rfl with rfl
      have htruth (k : I64) : truth (.int k) = decide (k ≠ 0) := rfl
      cases p with
      | andAnd =>
          rcases Except.ok.inj hv with rfl
          simp only [logicVal, Option.bind_some, htruth] at hw
          -- a left operand that is 0 decides
          split_ifs at hw with h0
          · rcases Option.map_eq_some_iff.mp hw with ⟨y, hy, rfl⟩
            rcases hj y hy with rfl
            simp_all
          · rcases Option.some.inj hw with rfl
            simp_all [ofBool]
      | orOr =>
          rcases Except.ok.inj hv with rfl
          simp only [logicVal, Option.bind_some, htruth] at hw
          split_ifs at hw with h0
          · rcases Option.some.inj hw with rfl
            simp_all [ofBool]
          · rcases Option.map_eq_some_iff.mp hw with ⟨y, hy, rfl⟩
            rcases hj y hy with rfl
            simp_all
      | xorXor =>
          rcases Except.ok.inj hv with rfl
          rcases Option.map_eq_some_iff.mp hw with ⟨y, hy, rfl⟩
          rcases hj y hy with rfl
          rw [htruth, htruth]
          cases decide (i ≠ 0) <;> cases decide (j ≠ 0) <;> rfl
      | eqEq | ne =>
          rcases Except.ok.inj hv with rfl
          rcases Option.bind_eq_some_iff.mp hw with ⟨y, hy, hw⟩
          rcases hj y hy with rfl
          simp only [eqVal, ha, hc] at hw
          rcases Option.map_eq_some_iff.mp hw with ⟨b, hb, rfl⟩
          rcases Option.some.inj hb with rfl
          simp [Bool.beq_eq_decide_eq]
      | _ => exact absurd hp (by decide)

/-- An arithmetic node whose operands agree. -/
theorem arith_agrees_iff {n : Node} (hp : isArith p) (ha : (rtType a).isF64 = false)
    (hc : (rtType c).isF64 = false) (haa : ValueAgrees Γ E a) (hac : ValueAgrees Γ E c)
    (hv : E.eval Γ (.binary n p a c) = .ok v) :
    ValueAgrees Γ E (.binary n p a c) ↔ NodeOk Γ (E.heap Γ) (.binary n p a c) := by
  rcases eval_binary hv with ⟨i, j, hi, hj, hop⟩
  rw [foldBinary_arith hp] at hop
  constructor
  · intro hagree i' j' hai hcj
    have hi' : i' = i := Val.int.inj (haa i _ hi hai)
    have hj' : j' = j := Val.int.inj (hac j _ hj hcj)
    rw [hi'] at hai ⊢
    rw [hj'] at hcj ⊢
    rcases intOp_defined hop (isU64 (rtType a) || isU64 (rtType c)) (isU64 (rtType a)) with
      ⟨w, hw⟩
    have hval : Γ.rtVal (.binary n p a c) = some (.int w) := by
      unfold Env.rtVal
      rw [if_pos hp, hai, hcj, Option.bind_some, Option.bind_some, arithVal_int ha hc, hw]
      rfl
    exact (intOp_eq_iff hop hw).mp (Val.int.inj (hagree v _ hv hval))
  · intro hok v' w hv' hw
    rcases Except.ok.inj (hv.symm.trans hv') with rfl
    unfold Env.rtVal at hw
    rw [if_pos hp] at hw
    rcases Option.bind_eq_some_iff.mp hw with ⟨x, hx, hw⟩
    rcases Option.bind_eq_some_iff.mp hw with ⟨y, hy, hw⟩
    rcases haa i x hi hx with rfl
    rcases hac j y hj hy with rfl
    rw [arithVal_int ha hc] at hw
    rcases Option.map_eq_some_iff.mp hw with ⟨u, hu, rfl⟩
    exact congrArg Val.int ((intOp_eq_iff hop hu).mpr (hok i j hx hy))

/-- A node with a truth value, whose operands agree where they are evaluated. -/
theorem logic_agrees {n : Node} (hp : isLogic p) (ha : (rtType a).isF64 = false)
    (hc : (rtType c).isF64 = false) (haa : ValueAgrees Γ E a) (hac : ValueAgrees Γ E c) :
    ValueAgrees Γ E (.binary n p a c) := by
  intro v w hv hw
  rcases eval_binary hv with ⟨i, j, hi, hj, hop⟩
  unfold Env.rtVal at hw
  rw [if_neg (not_isArith hp)] at hw
  have hleft : ∀ x, Γ.rtVal a = some x → x = .int i := fun x hx => haa i x hi hx
  have hright : ∀ y, Γ.rtVal c = some y → y = .int j := fun y hy => hac j y hj hy
  exact logicVal_eq hp ha hc hleft hright hop hw

theorem nodeOk_logic {H : Heap} {n : Node} (hp : isLogic p) : NodeOk Γ H (.binary n p a c) := by
  intro i j _ _
  cases p <;> trivial

theorem cast_agrees {n : Node} (size : Nat) (uns : Bool) (hk : ValueAgrees Γ E k) :
    ValueAgrees Γ E (.cast n k (.int size uns)) := by
  intro v w hv hw
  rcases eval_cast hv with ⟨i, hi, rfl⟩
  rcases Option.bind_eq_some_iff.mp hw with ⟨x, hx, hw⟩
  rcases hk i x hi hx with rfl
  rw [foldCast_int]
  exact (Option.some.inj hw).symm

theorem unary_agrees {n : Node} (hp : isUnary p) (h : (rtType k).isF64 = false)
    (hk : ValueAgrees Γ E k) : ValueAgrees Γ E (.unary n p true k) := by
  intro v w hv hw
  rcases eval_unary hv with ⟨i, hi, hop⟩
  rcases Option.bind_eq_some_iff.mp hw with ⟨x, hx, hw⟩
  rcases hk i x hi hx with rfl
  cases p with
  | minus =>
      unfold unaryVal at hw
      rw [h, if_neg Bool.false_ne_true] at hw
      rcases Except.ok.inj hop with rfl
      exact (Option.some.inj hw).symm
  | plus | tilde =>
      rcases Except.ok.inj hop with rfl
      exact (Option.some.inj hw).symm
  | not =>
      rcases Except.ok.inj hop with rfl
      rcases Option.some.inj hw with rfl
      by_cases h0 : i = 0 <;> simp [truth, h0]
  | _ => cases hop

/-- A leaf that folds to its value. -/
theorem leaf_agrees {i : I64} (hv : E.eval Γ e = .ok i) (hw : Γ.rtVal e = some (.int i)) :
    ValueAgrees Γ E e := by
  intro v w hv' hw'
  rcases Except.ok.inj (hv.symm.trans hv') with rfl
  exact (Option.some.inj (hw.symm.trans hw')).symm

/-- Folding agrees with the emitted code on every part of an integer expression
exactly if the operators agree at every node. -/
theorem foldInt_agrees_iff {Γ : Env} {E : Evaluator} {e : Expr} {v : I64} (he : IntTree e)
    (hv : E.eval Γ e = .ok v) :
    (∀ s ∈ parts e, FoldAgrees Γ E s) ↔ ∀ s ∈ parts e, NodeOk Γ (E.heap Γ) s := by
  have hconst := he.constant hv
  induction he generalizing v with
  | intLit n i | charLit n i =>
      refine parts_iff (by simp) fun _ => ?_
      rw [foldAgrees_iff_value hconst]
      refine ⟨fun _ => trivial, fun _ => leaf_agrees (i := i) ?_ ?_⟩
      · cases E <;> rfl
      · rfl
  | sizeofType n t =>
      refine parts_iff (by simp) fun _ => ?_
      rw [foldAgrees_iff_value hconst]
      have hsize : E.eval Γ (.sizeofType n t) = .ok (t.size (E.heap Γ)) := by cases E <;> rfl
      constructor
      · intro hagree
        exact (Val.int.inj (hagree _ _ hsize rfl)).symm
      · intro hok
        exact leaf_agrees hsize (congrArg (fun i => some (Val.int i)) (Eq.symm hok))
  | offsetOf n c m r =>
      refine parts_iff (by simp) fun _ => ?_
      rw [foldAgrees_iff_value hconst]
      have hagree : ValueAgrees Γ E (.offsetOf n c m r) := by
        cases E with
        | codegen =>
            refine leaf_agrees hv ?_
            unfold Env.rtVal
            rw [show Γ.offsetOf c m r = .ok v from hv]
            rfl
        | parser H => cases hv
      exact ⟨fun _ => trivial, fun _ => hagree⟩
  | cast n size uns h ih =>
      rcases eval_cast hv with ⟨i, hi, _⟩
      have hk := h.constant hi
      refine parts_iff (ih hi hk) fun hall => ?_
      rw [foldAgrees_iff_value hconst]
      have hagree := cast_agrees (n := n) size uns
        ((foldAgrees_iff_value hk).mp (hall _ (mem_parts_self _)))
      exact ⟨fun _ => trivial, fun _ => hagree⟩
  | unary n hp h ih =>
      rcases eval_unary hv with ⟨i, hi, _⟩
      have hk := h.constant hi
      refine parts_iff (ih hi hk) fun hall => ?_
      rw [foldAgrees_iff_value hconst]
      have hagree := unary_agrees (n := n) hp h.rtType_isF64
        ((foldAgrees_iff_value hk).mp (hall _ (mem_parts_self _)))
      exact ⟨fun _ => trivial, fun _ => hagree⟩
  | arith n hp ha hc iha ihc =>
      rcases eval_binary hv with ⟨i, j, hi, hj, _⟩
      have hka := ha.constant hi
      have hkc := hc.constant hj
      refine parts_iff ?_ fun hall => ?_
      · rw [List.forall_mem_append, List.forall_mem_append]
        exact and_congr (iha hi hka) (ihc hj hkc)
      · rw [foldAgrees_iff_value hconst]
        rcases List.forall_mem_append.mp hall with ⟨halla, hallc⟩
        exact arith_agrees_iff hp ha.rtType_isF64 hc.rtType_isF64
          ((foldAgrees_iff_value hka).mp (halla _ (mem_parts_self _)))
          ((foldAgrees_iff_value hkc).mp (hallc _ (mem_parts_self _))) hv
  | logic n hp ha hc iha ihc =>
      rcases eval_binary hv with ⟨i, j, hi, hj, _⟩
      have hka := ha.constant hi
      have hkc := hc.constant hj
      refine parts_iff ?_ fun hall => ?_
      · rw [List.forall_mem_append, List.forall_mem_append]
        exact and_congr (iha hi hka) (ihc hj hkc)
      · rw [foldAgrees_iff_value hconst]
        rcases List.forall_mem_append.mp hall with ⟨halla, hallc⟩
        have hagree := logic_agrees (n := n) hp ha.rtType_isF64 hc.rtType_isF64
          ((foldAgrees_iff_value hka).mp (halla _ (mem_parts_self _)))
          ((foldAgrees_iff_value hkc).mp (hallc _ (mem_parts_self _)))
        exact ⟨fun _ => nodeOk_logic hp, fun _ => hagree⟩

/-- The unsigned quotient `9(U64) / 2`: the operands are small, so folding agrees. -/
theorem foldInt_agrees_iff_quotient :
    IntTree (.binary {} .slash (.cast {} (.intLit {} 9) .u64) (.intLit {} 2)) ∧
    ∀ s ∈ parts (.binary {} .slash (.cast {} (.intLit {} 9) .u64) (.intLit {} 2)),
      FoldAgrees {} .codegen s := by
  have htree : IntTree (.binary {} .slash (.cast {} (.intLit {} 9) .u64) (.intLit {} 2)) :=
    .arith {} rfl (.cast {} 8 true (.intLit {} 9)) (.intLit {} 2)
  refine ⟨htree, ?_⟩
  refine (foldInt_agrees_iff (v := 4) htree (by decide)).mpr ?_
  simp only [parts, List.cons_append, List.nil_append, List.forall_mem_cons]
  refine ⟨?_, trivial, trivial, trivial, fun s hs => by cases hs⟩
  intro i j hi hj _
  rw [← Val.int.inj (Option.some.inj hi), ← Val.int.inj (Option.some.inj hj)]
  decide

/-- The power of 2 to -1 folds to 1, where its code computes 0. -/
theorem foldInt_negative_power : ∃ e, IntTree e ∧ Evaluator.codegen.eval {} e = .ok 1 ∧
    ({} : Env).CodeGives e (.int 0) ∧ ¬({} : Env).CodeGives e (.int 1) ∧
    ¬FoldAgrees {} .codegen e := by
  let e : Expr := .binary {} .pow (.intLit {} 2) (.unary {} .minus true (.intLit {} 1))
  have htree : IntTree e := .arith {} rfl (.intLit {} 2) (.unary {} rfl (.intLit {} 1))
  have hfold : Evaluator.codegen.eval {} e = .ok 1 := by decide
  have hcode : ({} : Env).CodeGives e (.int 0) :=
    (htree.constant hfold).computes.codeGives (v := .int 0)
  have hone : ¬({} : Env).CodeGives e (.int 1) := by
    intro h
    exact absurd (hcode.unique h) (by decide)
  exact ⟨e, htree, hfold, hcode, hone, fun hagree => hone (hagree 1 hfold rfl)⟩

end

end Hlang.Codegen
