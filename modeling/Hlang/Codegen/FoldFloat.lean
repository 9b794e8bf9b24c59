import Hlang.Codegen.FoldInt

/-!
# Hlang.Codegen.FoldFloat — folding against running, with doubles

`evalConstF64` folds a literal and a negation as a double and everything else
through the integer evaluator, which truncates each literal first. So a folded
sum or product of doubles is the value the code computes exactly if the integer
operator on the truncated operands is exact.
-/

namespace Hlang.Codegen

open Ir

/-- The operators `+`, `-`, `*` and `/`. -/
def isField : P → Bool
  | .plus | .minus | .star | .slash => true
  | _ => false

/-- Expressions over float and integer literals. -/
inductive FloatTree : Expr → Prop where
  | floatLit (n : Node) (d : ℚ) : FloatTree (.floatLit n d)
  | intLit (n : Node) (v : I64) : FloatTree (.intLit n v)
  | minus (n : Node) {k : Expr} (h : FloatTree k) : FloatTree (.unary n .minus true k)
  | plus (n : Node) {k : Expr} (h : FloatTree k) : FloatTree (.unary n .plus true k)
  | binary (n : Node) {p : P} {a c : Expr} (hp : isField p) (ha : FloatTree a)
      (hc : FloatTree c) : FloatTree (.binary n p a c)

/-- If `e` folds as the initialiser of an `F64`, then its code, converted to `F64`,
computes the folded value. -/
def AgreesF64 (Γ : Env) (e : Expr) : Prop :=
  ∀ d, Γ.evalConstF64 e = .ok d → (Γ.rtVal e).isSome → Γ.CodeConverts e .f64 (.fp d)

/-- If `e` folds as an integer, then its code, truncated to `I64`, computes the
folded value. -/
def AgreesI64 (Γ : Env) (e : Expr) : Prop :=
  ∀ v, Γ.evalConst e = .ok v → ((Γ.rtVal e).bind asInt).isSome → Γ.CodeConverts e .i64 (.int v)

/-- Truncation to 64 bits. -/
def trunc64 (q : ℚ) : I64 := BitVec.ofInt 64 (truncate q)

/-- The operator is exact on the operands truncated to integers. -/
def FieldOk (op : P) (x y : ℚ) : Prop :=
  match op with
  | .plus => x + y = (trunc64 x + trunc64 y).toInt
  | .minus => x - y = (trunc64 x - trunc64 y).toInt
  | .star => x * y = (trunc64 x * trunc64 y).toInt
  | .slash => x / y = ((trunc64 x).sdiv (trunc64 y)).toInt
  | _ => True

/-- The condition at the node of `e`, on the values of its operands. -/
def FloatNodeOk (Γ : Env) : Expr → Prop
  | .unary _ .minus _ k => Γ.rtVal k ≠ some (.int (BitVec.intMin 64))
  | .unary _ .plus _ k => ∀ x, Γ.rtVal k = some x →
      asFp (rtType k) x = (trunc64 (asFp (rtType k) x)).toInt
  | .binary _ p a c => ∀ x y, Γ.rtVal a = some x → Γ.rtVal c = some y →
      ((rtType a).isF64 || (rtType c).isF64) = true →
      FieldOk p (asFp (rtType a) x) (asFp (rtType c) y)
  | _ => True

/-! ## Truncation -/

theorem truncate_intCast (z : ℤ) : truncate z = z := by
  unfold truncate
  simp

theorem truncate_neg (q : ℚ) : truncate (-q) = -truncate q := by
  unfold truncate
  simp [Int.neg_tdiv]

theorem trunc64_toInt (i : I64) : trunc64 i.toInt = i := by
  unfold trunc64
  rw [truncate_intCast, BitVec.ofInt_toInt]

theorem trunc64_neg (q : ℚ) : trunc64 (-q) = -trunc64 q := by
  unfold trunc64
  rw [truncate_neg, BitVec.ofInt_neg]

theorem toI64?_eq {q : ℚ} {i : I64} (h : toI64? q = some i) : i = trunc64 q := by
  unfold toI64? at h
  split_ifs at h
  exact (Option.some.inj h).symm

/-! ## Types and evaluators -/

section

variable {Γ : Env} {e k a c : Expr}

theorem isArith_of_isField {p : P} (hp : isField p) : isArith p := by
  cases p <;> first | rfl | exact absurd hp (by decide)

theorem FloatTree.constant (h : FloatTree e) : Constant Γ e := by
  induction h with
  | floatLit n d => exact .floatLit n d
  | intLit n v => exact .intLit n v
  | minus n _ ih => exact .unary n rfl ih
  | plus n _ ih => exact .unary n rfl ih
  | binary n hp _ _ iha ihc => exact .arith n (isArith_of_isField hp) iha ihc

/-- A double when an operand is one, else an `I64`. -/
theorem arithTy_field {p : P} (hp : isField p) {ta tc : Ty} (ha : isU64 ta = false)
    (hc : isU64 tc = false) :
    arithTy p ta tc = if ta.isF64 || tc.isF64 then .f64 else .i64 := by
  unfold arithTy
  rw [ha, hc]
  cases p <;> first | exact absurd hp (by decide) | skip
  all_goals cases ta.isF64 || tc.isF64 <;> rfl

theorem FloatTree.rtType_cases (h : FloatTree e) : rtType e = .f64 ∨ rtType e = .i64 := by
  induction h with
  | floatLit n d => exact .inl rfl
  | intLit n v => exact .inr rfl
  | minus n _ ih =>
      unfold rtType
      rcases ih with hty | hty <;> rw [hty]
      · exact .inl rfl
      · exact .inr rfl
  | plus n _ ih => exact ih
  | binary n hp _ _ iha ihc =>
      unfold rtType
      rw [if_pos (isArith_of_isField hp), arithTy_field hp]
      · split_ifs
        · exact .inl rfl
        · exact .inr rfl
      · rcases iha with hty | hty <;> rw [hty] <;> rfl
      · rcases ihc with hty | hty <;> rw [hty] <;> rfl

/-- Where `evalConstF64` asks the integer evaluator. -/
theorem folds_of_int {v : I64} (hv : Γ.evalConst e = .ok v)
    (he : Γ.evalConstF64 e = (do return (← Γ.evalConst e).toInt)) :
    ∃ d, Γ.evalConstF64 e = .ok d ∧ v = trunc64 d := by
  refine ⟨v.toInt, ?_, (trunc64_toInt v).symm⟩
  rw [he, hv]
  rfl

/-- What folds as an integer folds as a double, and the integer is that truncated. -/
theorem FloatTree.folds (h : FloatTree e) {v : I64} (hv : Γ.evalConst e = .ok v) :
    ∃ d, Γ.evalConstF64 e = .ok d ∧ v = trunc64 d := by
  induction h generalizing v with
  | floatLit n d =>
      refine ⟨d, rfl, ?_⟩
      change foldTrunc d = .ok v at hv
      cases hq : toI64? d with
      | none => simp [foldTrunc, hq] at hv
      | some i =>
          simp only [foldTrunc, hq, Except.ok.injEq] at hv
          rw [← hv, toI64?_eq hq]
  | minus n _ ih =>
      rcases eval_unary (E := .codegen) (n := n) hv with ⟨i, hi, hneg⟩
      rcases ih hi with ⟨d, hd, rfl⟩
      refine ⟨-d, ?_, ?_⟩
      · unfold Env.evalConstF64
        rw [if_pos rfl, hd]
        rfl
      · rw [trunc64_neg]
        exact (Except.ok.inj hneg).symm
  | intLit n i => exact folds_of_int hv rfl
  | plus n _ _ => exact folds_of_int hv rfl
  | binary n hp _ _ _ _ => exact folds_of_int hv rfl

/-- The value at run time, as a double, is the folded one. -/
def ValueAgreesF64 (Γ : Env) (e : Expr) : Prop :=
  ∀ d w, Γ.evalConstF64 e = .ok d → Γ.rtVal e = some w → asFp (rtType e) w = d

theorem FloatTree.asFp_int (h : FloatTree e) (i : I64) : asFp (rtType e) (.int i) = i.toInt := by
  rcases h.rtType_cases with hty | hty <;> rw [hty] <;> rfl

theorem FloatTree.asInt_eq (h : FloatTree e) {w : Val} {i : I64} (hw : asInt w = some i) :
    i = trunc64 (asFp (rtType e) w) := by
  cases w with
  | int j =>
      rw [h.asFp_int, trunc64_toInt]
      exact (Option.some.inj hw).symm
  | fp q => exact toI64?_eq hw

theorem Constant.codeConverts {F : Val → Option Val} {t : Ty} {w u : Val} (h : Constant Γ e)
    {ty : LTy} (ht : Maps (fun x => convert ⟨some x, rtType e⟩ t) id (valTy (rtType e)) ty F)
    (hw : Γ.rtVal e = some w) (hu : F w = some u) : Γ.CodeConverts e t u := by
  rcases h.computes with ⟨d, hd⟩
  have hcomp : ∀ d', d ≤ d' → ∀ cs, Computes
      ((gen Γ d').genExpr cs e >>= fun rv => convert rv t) id ty (some u) := by
    intro d' hd' cs
    have hbind := (hd d' hd' cs).bind (f := fun rv => convert rv t) ht
    rwa [hw, Option.bind_some, hu] at hbind
  exact .of_computes ⟨d, hcomp⟩ fun _ => rfl

/-- The integer half adds nothing: both halves say that the values agree. -/
theorem FloatTree.agrees_iff (h : FloatTree e) :
    AgreesF64 Γ e ∧ AgreesI64 Γ e ↔ ValueAgreesF64 Γ e := by
  constructor
  · rintro ⟨hagree, _⟩ d w hd hw
    have hcode := h.constant.codeConverts (convert_f64 _) hw rfl
    have hfold := hagree d hd (by rw [hw]; rfl)
    exact Val.fp.inj (hcode.unique hfold)
  · intro hagree
    constructor
    · intro d hd hdef
      rcases Option.isSome_iff_exists.mp hdef with ⟨w, hw⟩
      rw [← hagree d w hd hw]
      exact h.constant.codeConverts (convert_f64 _) hw rfl
    · intro v hv hdef
      rcases Option.isSome_iff_exists.mp hdef with ⟨i, hi⟩
      rcases Option.bind_eq_some_iff.mp hi with ⟨w, hw, hi⟩
      rcases h.folds hv with ⟨d, hd, rfl⟩
      have hint : i = trunc64 d := by
        rw [h.asInt_eq hi, hagree d w hd hw]
      refine h.constant.codeConverts (convert_int _ 8 false) hw ?_
      rw [hi, hint]
      rfl

/-! ## One node -/

theorem Constant.fits (h : Constant Γ e) {w : Val} (hw : Γ.rtVal e = some w) :
    w.Fits (valTy (rtType e)) := by
  rcases h.computes with ⟨d, hd⟩
  exact (hd d (Nat.le_refl d) []).fits w hw

theorem minus_agrees_iff {n : Node} (h : FloatTree k) {d : ℚ} (hd : Γ.evalConstF64 k = .ok d)
    (hk : ValueAgreesF64 Γ k) : ValueAgreesF64 Γ (.unary n .minus true k) ↔
      FloatNodeOk Γ (.unary n .minus true k) := by
  have hfold : Γ.evalConstF64 (.unary n .minus true k) = .ok (-d) := by
    unfold Env.evalConstF64
    rw [if_pos rfl, hd]
    rfl
  have hval : Γ.rtVal (.unary n .minus true k) = (Γ.rtVal k).bind (unaryVal .minus (rtType k)) :=
    rfl
  have htype : rtType (.unary n .minus true k) = unaryTy .minus (rtType k) := rfl
  rcases h.rtType_cases with hty | hty
  · -- a double
    constructor
    · intro _ hmin
      have hfits := h.constant.fits hmin
      rw [hty] at hfits
      exact hfits rfl
    · intro _ d' w hd' hw
      rcases Except.ok.inj (hfold.symm.trans hd') with rfl
      rw [hval] at hw
      rcases Option.bind_eq_some_iff.mp hw with ⟨x, hx, hw⟩
      have hxd := hk d x hd hx
      rw [hty] at hw hxd
      rcases Option.some.inj hw with rfl
      rw [htype, hty, ← hxd]
      rfl
  · -- an integer
    have hint : ∀ x, Γ.rtVal k = some x → ∃ i : I64, x = .int i ∧ d = i.toInt := by
      intro x hx
      have hfits := h.constant.fits hx
      rw [hty] at hfits
      rcases fits_int_cases hfits with ⟨i, rfl⟩
      refine ⟨i, rfl, ?_⟩
      rw [← hk d _ hd hx, h.asFp_int]
    have hneg : ∀ i : I64, Γ.rtVal k = some (.int i) →
        Γ.rtVal (.unary n .minus true k) = some (.int (-i)) := by
      intro i hi
      rw [hval, hi, hty]
      rfl
    have hneg64 : asFp (rtType (.unary n .minus true k)) = asFp .i64 := by
      rw [htype, hty]
      rfl
    constructor
    · intro hagree hmin
      rcases hint _ hmin with ⟨i, hi, hdi⟩
      have heq := hagree (-d) _ hfold (hneg _ hmin)
      rw [hneg64, hdi, ← Val.int.inj hi] at heq
      exact absurd heq (by decide)
    · intro hok d' w hd' hw
      rcases Except.ok.inj (hfold.symm.trans hd') with rfl
      rw [hval] at hw
      rcases Option.bind_eq_some_iff.mp hw with ⟨x, hx, _⟩
      rcases hint x hx with ⟨i, rfl, rfl⟩
      have hne : i ≠ BitVec.intMin 64 := fun h => hok (h ▸ hx)
      rw [← hval, hneg i hx] at hw
      rcases Option.some.inj hw with rfl
      rw [hneg64]
      change (((-i).toInt : ℤ) : ℚ) = _
      rw [BitVec.toInt_neg_of_ne_intMin hne]
      simp

theorem plus_agrees_iff {n : Node} {d : ℚ} {v : I64} (hv : Γ.evalConst k = .ok v)
    (hd : Γ.evalConstF64 k = .ok d) (hvd : v = trunc64 d) (hk : ValueAgreesF64 Γ k) :
    ValueAgreesF64 Γ (.unary n .plus true k) ↔ FloatNodeOk Γ (.unary n .plus true k) := by
  have hconst : Γ.evalConst (.unary n .plus true k) = .ok v := by
    change (Γ.evalConst k >>= foldUnary .plus) = _
    rw [hv]
    rfl
  have hfold : Γ.evalConstF64 (.unary n .plus true k) = .ok v.toInt := by
    unfold Env.evalConstF64
    rw [if_neg (by decide), hconst]
    rfl
  have hval : Γ.rtVal (.unary n .plus true k) = Γ.rtVal k := by
    change (Γ.rtVal k).bind some = _
    cases Γ.rtVal k <;> rfl
  constructor
  · intro hagree x hx
    have heq := hagree _ x hfold (hval.trans hx)
    have hxd := hk d x hd hx
    rw [hvd, ← hxd] at heq
    exact heq
  · intro hok d' w hd' hw
    rcases Except.ok.inj (hfold.symm.trans hd') with rfl
    rw [hval] at hw
    have hxd := hk d w hd hw
    have heq := hok w hw
    rw [hxd, ← hvd] at heq
    exact hxd.trans heq

/-- An operator on doubles, next to the integer operator on the truncated ones. -/
theorem fpOp_field {p : P} (hp : isField p) {x y : ℚ} {v : I64}
    (hv : foldArith p (trunc64 x) (trunc64 y) = .ok v) :
    ∃ z, fpOp p x y = some z ∧ (z = v.toInt ↔ FieldOk p x y) := by
  cases p with
  | plus | minus | star =>
      rcases Except.ok.inj hv with rfl
      exact ⟨_, rfl, Iff.rfl⟩
  | slash =>
      rcases foldDiv_ok hv with ⟨h0, _, rfl⟩
      have hy : y ≠ 0 := by
        rintro rfl
        exact h0 rfl
      exact ⟨_, if_neg hy, Iff.rfl⟩
  | _ => exact absurd hp (by decide)

theorem arithOk_signed {p : P} (hp : isField p) (i j : I64) : ArithOk p false false i j := by
  cases p <;> first | trivial | exact fun h => absurd h Bool.false_ne_true

theorem binary_agrees_iff {n : Node} {p : P} (hp : isField p) (ha : FloatTree a)
    (hc : FloatTree c) {i j v : I64} (hi : Γ.evalConst a = .ok i) (hj : Γ.evalConst c = .ok j)
    (hv : foldBinary p i j = .ok v) (hka : ValueAgreesF64 Γ a) (hkc : ValueAgreesF64 Γ c) :
    ValueAgreesF64 Γ (.binary n p a c) ↔ FloatNodeOk Γ (.binary n p a c) := by
  have harith := isArith_of_isField hp
  have hconst : Γ.evalConst (.binary n p a c) = .ok v := by
    change (Γ.evalConst a >>= fun a => Γ.evalConst c >>= foldBinary p a) = _
    rw [hi, hj]
    exact hv
  have hfold : Γ.evalConstF64 (.binary n p a c) = .ok v.toInt := by
    unfold Env.evalConstF64
    rw [hconst]
    rfl
  rw [foldBinary_arith harith] at hv
  rcases ha.folds hi with ⟨da, hda, rfl⟩
  rcases hc.folds hj with ⟨dc, hdc, rfl⟩
  have hval : Γ.rtVal (.binary n p a c) = (Γ.rtVal a).bind fun x =>
      (Γ.rtVal c).bind (arithVal p (rtType a) (rtType c) x) := if_pos harith
  have hua : isU64 (rtType a) = false := by
    rcases ha.rtType_cases with hty | hty <;> rw [hty] <;> rfl
  have huc : isU64 (rtType c) = false := by
    rcases hc.rtType_cases with hty | hty <;> rw [hty] <;> rfl
  have htype : rtType (.binary n p a c) =
      if (rtType a).isF64 || (rtType c).isF64 then .f64 else .i64 :=
    (if_pos harith).trans (arithTy_field hp hua huc)
  cases hf : (rtType a).isF64 || (rtType c).isF64 with
  | true =>
      rcases fpOp_field hp hv with ⟨z, hz, hiff⟩
      have hbits : isBitwise p = false := by cases p <;> first | rfl | exact absurd hp (by decide)
      have harithVal : ∀ x y, Γ.rtVal a = some x → Γ.rtVal c = some y →
          arithVal p (rtType a) (rtType c) x y = some (.fp z) := by
        intro x y hx hy
        unfold arithVal
        rw [hf, hbits, hka da x hda hx, hkc dc y hdc hy, hz]
        rfl
      constructor
      · intro hagree x y hx hy _
        rw [hka da x hda hx, hkc dc y hdc hy]
        refine hiff.mp ?_
        have hw : Γ.rtVal (.binary n p a c) = some (.fp z) := by
          rw [hval, hx, hy]
          exact harithVal x y hx hy
        exact hagree _ _ hfold hw
      · intro hok d w hd hw
        rcases Except.ok.inj (hfold.symm.trans hd) with rfl
        rw [hval] at hw
        rcases Option.bind_eq_some_iff.mp hw with ⟨x, hx, hw⟩
        rcases Option.bind_eq_some_iff.mp hw with ⟨y, hy, hw⟩
        rw [harithVal x y hx hy] at hw
        rcases Option.some.inj hw with rfl
        have hfield := hok x y hx hy hf
        rw [hka da x hda hx, hkc dc y hdc hy] at hfield
        exact hiff.mpr hfield
  | false =>
      refine ⟨fun _ x y _ _ h => absurd (hf.symm.trans h) Bool.false_ne_true, ?_⟩
      rcases Bool.or_eq_false_iff.mp hf with ⟨hfa, hfc⟩
      -- both operands are integers, and the signed operator is the one that folds
      have hint : ∀ {e : Expr} {d : ℚ} {x : Val}, FloatTree e → (rtType e).isF64 = false →
          asFp (rtType e) x = d → Γ.rtVal e = some x → x = .int (trunc64 d) := by
        intro e d x he hfe hxd hx
        have hfits := he.constant.fits hx
        rw [valTy_other hfe] at hfits
        rcases fits_int_cases hfits with ⟨i, rfl⟩
        rw [← hxd, he.asFp_int, trunc64_toInt]
      intro _ d w hd hw
      rcases Except.ok.inj (hfold.symm.trans hd) with rfl
      rw [hval] at hw
      rcases Option.bind_eq_some_iff.mp hw with ⟨x, hx, hw⟩
      rcases Option.bind_eq_some_iff.mp hw with ⟨y, hy, hw⟩
      rcases hint ha hfa (hka da x hda hx) hx with rfl
      rcases hint hc hfc (hkc dc y hdc hy) hy with rfl
      rw [arithVal_int hfa hfc, hua, huc] at hw
      rcases Option.map_eq_some_iff.mp hw with ⟨u, hu, rfl⟩
      rw [(intOp_eq_iff hv hu).mpr (arithOk_signed hp _ _), htype, hf]
      rfl

/-- Folding agrees with the emitted code, as a double and as an integer, on every
part of an expression over literals exactly if no node of it loses a fraction or
a sign. -/
theorem foldFloat_agrees_iff (he : FloatTree e)
    (hfold : (∃ d, Γ.evalConstF64 e = .ok d) ∨ ∃ v, Γ.evalConst e = .ok v) :
    (∀ s ∈ parts e, AgreesF64 Γ s ∧ AgreesI64 Γ s) ↔ ∀ s ∈ parts e, FloatNodeOk Γ s := by
  have hd : ∃ d, Γ.evalConstF64 e = .ok d := by
    rcases hfold with hd | ⟨v, hv⟩
    · exact hd
    · rcases he.folds hv with ⟨d, hd, _⟩
      exact ⟨d, hd⟩
  clear hfold
  rcases hd with ⟨d, hd⟩
  induction he generalizing d with
  | floatLit n q =>
      refine parts_iff (by simp) fun _ => ?_
      rw [(FloatTree.floatLit n q).agrees_iff]
      refine ⟨fun _ => trivial, fun _ d w hd hw => ?_⟩
      rcases Except.ok.inj hd with rfl
      rcases Option.some.inj hw with rfl
      rfl
  | intLit n i =>
      refine parts_iff (by simp) fun _ => ?_
      rw [(FloatTree.intLit n i).agrees_iff]
      refine ⟨fun _ => trivial, fun _ d w hd hw => ?_⟩
      rcases Except.ok.inj hd with rfl
      rcases Option.some.inj hw with rfl
      rfl
  | minus n h ih =>
      unfold Env.evalConstF64 at hd
      rw [if_pos rfl] at hd
      rcases Fallible.bind_eq_ok.mp hd with ⟨dk, hdk, _⟩
      refine parts_iff (ih dk hdk) fun hall => ?_
      rw [(FloatTree.minus n h).agrees_iff]
      exact minus_agrees_iff h hdk (h.agrees_iff.mp (hall _ (mem_parts_self _)))
  | plus n h ih =>
      unfold Env.evalConstF64 at hd
      rw [if_neg (by decide)] at hd
      rcases Fallible.bind_eq_ok.mp hd with ⟨v, hv, _⟩
      rcases eval_unary (E := .codegen) (n := n) hv with ⟨i, hi, _⟩
      rcases h.folds hi with ⟨dk, hdk, hik⟩
      refine parts_iff (ih dk hdk) fun hall => ?_
      rw [(FloatTree.plus n h).agrees_iff]
      exact plus_agrees_iff hi hdk hik (h.agrees_iff.mp (hall _ (mem_parts_self _)))
  | binary n hp ha hc iha ihc =>
      unfold Env.evalConstF64 at hd
      rcases Fallible.bind_eq_ok.mp hd with ⟨v, hv, _⟩
      rcases eval_binary (E := .codegen) (n := n) hv with ⟨i, j, hi, hj, hop⟩
      rcases ha.folds hi with ⟨da, hda, _⟩
      rcases hc.folds hj with ⟨dc, hdc, _⟩
      refine parts_iff ?_ fun hall => ?_
      · rw [List.forall_mem_append, List.forall_mem_append]
        exact and_congr (iha da hda) (ihc dc hdc)
      · rw [(FloatTree.binary n hp ha hc).agrees_iff]
        rcases List.forall_mem_append.mp hall with ⟨halla, hallc⟩
        exact binary_agrees_iff hp ha hc hi hj hop (ha.agrees_iff.mp (halla _ (mem_parts_self _)))
          (hc.agrees_iff.mp (hallc _ (mem_parts_self _)))

end

/-- The quotient `8.0 / 2` is exact on the integers, so folding agrees. -/
theorem foldFloat_agrees_iff_quotient :
    FloatTree (.binary {} .slash (.floatLit {} 8) (.intLit {} 2)) ∧
    ∀ s ∈ parts (.binary {} .slash (.floatLit {} 8) (.intLit {} 2)),
      AgreesF64 {} s ∧ AgreesI64 {} s := by
  have htree : FloatTree (.binary {} .slash (.floatLit {} 8) (.intLit {} 2)) :=
    .binary {} rfl (.floatLit {} 8) (.intLit {} 2)
  refine ⟨htree, ?_⟩
  refine (foldFloat_agrees_iff htree (.inr ⟨4, by decide⟩)).mpr ?_
  simp only [parts, List.cons_append, List.nil_append, List.forall_mem_cons]
  refine ⟨?_, trivial, trivial, fun s hs => by cases hs⟩
  intro x y hx hy _
  rw [← Option.some.inj hx, ← Option.some.inj hy]
  change (8 : ℚ) / (2 : I64).toInt = ((trunc64 8).sdiv (trunc64 (2 : I64).toInt)).toInt
  decide +kernel

/-- The sum `1.5 + 1.5` folds to 2, where its code computes 3. -/
theorem foldFloat_sum_truncated : ∃ e, FloatTree e ∧ ({} : Env).evalConstF64 e = .ok 2 ∧
    ({} : Env).CodeConverts e .f64 (.fp 3) ∧ ¬({} : Env).CodeConverts e .f64 (.fp 2) ∧
    ¬AgreesF64 {} e := by
  let e : Expr := .binary {} .plus (.floatLit {} (3 / 2)) (.floatLit {} (3 / 2))
  have htree : FloatTree e := .binary {} rfl (.floatLit {} _) (.floatLit {} _)
  have hfold : ({} : Env).evalConstF64 e = .ok 2 := by decide +kernel
  have hval : ({} : Env).rtVal e = some (.fp 3) := by decide +kernel
  have hcode : ({} : Env).CodeConverts e .f64 (.fp 3) :=
    htree.constant.codeConverts (convert_f64 _) hval rfl
  have htwo : ¬({} : Env).CodeConverts e .f64 (.fp 2) := by
    intro h
    exact absurd (hcode.unique h) (by decide)
  exact ⟨e, htree, hfold, hcode, htwo, fun hagree => htwo (hagree 2 hfold (by rw [hval]; rfl))⟩

end Hlang.Codegen
