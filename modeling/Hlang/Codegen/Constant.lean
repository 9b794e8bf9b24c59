import Hlang.Codegen.Branch

/-!
# Hlang.Codegen.Constant — the code of constant expressions

The expressions that the compile-time evaluators look into, their static type
and their value at run time. The code that `genExpr` emits for one computes
that value.
-/

namespace Hlang.Codegen

open Ir

/-- The operators of a `binary` node with a truth value; the parser builds a
`chainCmp` node for the ordering operators. -/
def isLogic : P → Bool
  | .andAnd | .orOr | .xorXor | .eqEq | .ne => true
  | _ => false

/-- An expression without variables, calls or strings, in which each `offset`
has a member. -/
inductive Constant (Γ : Env) : Expr → Prop where
  | intLit (n : Node) (v : I64) : Constant Γ (.intLit n v)
  | charLit (n : Node) (v : I64) : Constant Γ (.charLit n v)
  | floatLit (n : Node) (d : ℚ) : Constant Γ (.floatLit n d)
  | sizeofType (n : Node) (t : Ty) : Constant Γ (.sizeofType n t)
  | offsetOf (n : Node) {c m : String} {r : Option ClassId} {v : I64} (h : Γ.offsetOf c m r = .ok v) :
      Constant Γ (.offsetOf n c m r)
  | cast (n : Node) {k : Expr} (size : Nat) (uns : Bool) (h : Constant Γ k) :
      Constant Γ (.cast n k (.int size uns))
  | unary (n : Node) {p : P} {k : Expr} (hp : isUnary p) (h : Constant Γ k) :
      Constant Γ (.unary n p true k)
  | arith (n : Node) {p : P} {a c : Expr} (hp : isArith p) (ha : Constant Γ a)
      (hc : Constant Γ c) : Constant Γ (.binary n p a c)
  | logic (n : Node) {p : P} {a c : Expr} (hp : isLogic p) (ha : Constant Γ a)
      (hc : Constant Γ c) : Constant Γ (.binary n p a c)

/-- The type that `genExpr` gives a constant expression. -/
def rtType : Expr → Ty
  | .floatLit _ _ => .f64
  | .cast _ _ t => t
  | .unary _ p _ k => unaryTy p (rtType k)
  | .binary _ p a c => if isArith p then arithTy p (rtType a) (rtType c) else .i64
  | _ => .i64

/-- An operator with a truth value; `&&` and `||` may not look at the right
operand. -/
def logicVal (p : P) (ta tc : Ty) (va vc : Option Val) : Option Val :=
  match p with
  | .andAnd => va.bind fun x => if truth x then vc.map fun y => .int (ofBool (truth y))
      else some (.int 0)
  | .orOr => va.bind fun x => if truth x then some (.int 1)
      else vc.map fun y => .int (ofBool (truth y))
  | .xorXor => va.bind fun x => vc.map fun y => .int (ofBool (truth x != truth y))
  | p => va.bind fun x => vc.bind fun y => (eqVal (p = .eqEq) ta tc x y).map fun b =>
      .int (ofBool b)

/-- The value of a constant expression at run time, where its operations are
defined. -/
def Env.rtVal (Γ : Env) : Expr → Option Val
  | .intLit _ v | .charLit _ v => some (.int v)
  | .floatLit _ d => some (.fp d)
  | .sizeofType _ t => some (.int (Γ.size t))
  | .offsetOf _ c m r => (Γ.offsetOf c m r).toOption.map .int
  | .cast _ k t => (Γ.rtVal k).bind fun v =>
      match t with
      | .int n uns => (asInt v).map fun i => .int (castInt n uns i)
      | _ => none
  | .unary _ p _ k => (Γ.rtVal k).bind (unaryVal p (rtType k))
  | .binary _ p a c =>
      if isArith p then
        (Γ.rtVal a).bind fun x => (Γ.rtVal c).bind (arithVal p (rtType a) (rtType c) x)
      else logicVal p (rtType a) (rtType c) (Γ.rtVal a) (Γ.rtVal c)
  | _ => none

theorem Constant.rtType_isPtr {Γ : Env} {e : Expr} (h : Constant Γ e) :
    (rtType e).isPtr = false := by
  induction h with
  | unary n hp _ ih => exact unaryTy_isPtr ih
  | arith n hp _ _ _ _ =>
      unfold rtType
      rw [if_pos hp]
      exact arithTy_isPtr _ _ _
  | logic n hp _ _ _ _ =>
      unfold rtType
      split_ifs
      · exact arithTy_isPtr _ _ _
      · rfl
  | _ => rfl

/-- The code of `genExpr` for `e` computes `v`, at every depth from some one on. -/
def Env.Computes (Γ : Env) (e : Expr) (t : Ty) (v : Option Val) : Prop :=
  ∃ d, ∀ d', d ≤ d' → ∀ cs,
    Codegen.Computes ((gen Γ d').genExpr cs e) (fun z => ⟨some z, t⟩) (valTy t) v

section

variable {Γ : Env} {e k a c : Expr} {ta tc t : Ty} {va vc v : Option Val}

theorem Env.Computes.unary (h : Γ.Computes k ta va) {e : Expr}
    {F : Val → Option Val} {f : RV → Gen RV}
    (hf : Maps (fun x => f ⟨some x, ta⟩) (fun z => ⟨some z, t⟩) (valTy ta) (valTy t) F)
    (he : ∀ d cs, (gen Γ (d + 1)).genExpr cs e = (gen Γ d).genExpr cs k >>= f) :
    Γ.Computes e t (va.bind F) := by
  rcases h with ⟨d, hd⟩
  refine ⟨d + 1, ?_⟩
  intro d' hd' cs
  rcases Nat.exists_eq_add_one.mpr (Nat.lt_of_lt_of_le (Nat.succ_pos d) hd') with ⟨d₀, rfl⟩
  rw [he]
  exact (hd d₀ (Nat.le_of_succ_le_succ hd') cs).bind hf

theorem Env.Computes.binary (ha : Γ.Computes a ta va) (hc : Γ.Computes c tc vc) {e : Expr}
    {F : Val → Val → Option Val} {f : RV → RV → Gen RV}
    (hf : Maps₂ (fun x y => f ⟨some x, ta⟩ ⟨some y, tc⟩) (fun z => ⟨some z, t⟩) (valTy ta)
      (valTy tc) (valTy t) F)
    (he : ∀ d cs, (gen Γ (d + 1)).genExpr cs e =
      (gen Γ d).genExpr cs a >>= fun x => (gen Γ d).genExpr cs c >>= fun y => f x y) :
    Γ.Computes e t (va.bind fun x => vc.bind (F x)) := by
  rcases ha with ⟨d₁, h₁⟩
  rcases hc with ⟨d₂, h₂⟩
  refine ⟨max d₁ d₂ + 1, ?_⟩
  intro d' hd' cs
  rcases Nat.exists_eq_add_one.mpr (Nat.lt_of_lt_of_le (Nat.succ_pos _) hd') with ⟨d₀, rfl⟩
  have hle := Nat.le_of_succ_le_succ hd'
  rw [he]
  exact (h₁ d₀ ((Nat.le_max_left _ _).trans hle) cs).bind₂
    (h₂ d₀ ((Nat.le_max_right _ _).trans hle) cs) hf

theorem Env.Computes.leaf {val : Value} {v : Val} (hty : val.type = valTy t)
    (hbelow : ∀ n, val.Below n) (hv : ∀ W ρ, val.eval W ρ = v) (hfits : v.Fits val.type)
    {e : Expr} (he : ∀ d cs, (gen Γ (d + 1)).genExpr cs e = pure ⟨some val, t⟩) :
    Γ.Computes e t (some v) := by
  refine ⟨1, ?_⟩
  intro d hd cs
  rcases Nat.exists_eq_add_one.mpr hd with ⟨d₀, rfl⟩
  rw [he, ← hty]
  exact Codegen.Computes.pure hbelow hv hfits fun z => (⟨some z, t⟩ : RV)

/-- A node that is an integer constant. -/
theorem Env.Computes.int {i : I64} {e : Expr}
    (he : ∀ d cs, (gen Γ (d + 1)).genExpr cs e = pure ⟨some (cI64 i), .i64⟩) :
    Γ.Computes e .i64 (some (.int i)) := by
  refine .leaf rfl ?_ (fun _ _ => rfl) ?_ he
  · intro n
    exact trivial
  · exact fun h => by cases h

theorem genUnary_computes {p : P} (hp : isUnary p) (h : Γ.Computes k ta va) (n : Node) :
    Γ.Computes (.unary n p true k) (unaryTy p ta) (va.bind (unaryVal p ta)) := by
  cases p with
  | minus =>
      refine h.unary (f := fun rv => if rv.isDouble
        then do return ⟨some (← Gen.create (.fneg (← convert rv .f64))), .f64⟩
        else do return ⟨some (← Gen.create (.bin .sub (cI64 0) (← convert rv .i64 false))),
          if rv.t.isInt then rv.t else .i64⟩) ?_ (fun _ _ => rfl)
      cases ht : ta.isF64 with
      | true =>
          have hty : unaryTy .minus ta = .f64 := if_pos ht
          rw [hty]
          have hmap := ((convert_f64 ta).bind maps_fneg).wrap fun z => (⟨some z, .f64⟩ : RV)
          refine hmap.congr ?_ ?_
          · intro x hx
            rw [isDouble_eq hx, ht, if_pos rfl, bind_assoc]
          · intro v _
            exact if_pos ht
      | false =>
          have hty : unaryTy .minus ta = if ta.isInt then ta else .i64 :=
            if_neg (by simp [ht])
          have hval : valTy (if ta.isInt then ta else .i64) = .int 64 := by
            split_ifs
            · exact valTy_other ht
            · rfl
          rw [hty, hval]
          have hmap := ((convert_i64 ta).bind maps_neg).wrap fun z =>
            (⟨some z, if ta.isInt then ta else .i64⟩ : RV)
          refine hmap.congr ?_ ?_
          · intro x hx
            rw [isDouble_eq hx, ht, if_neg (by simp), bind_assoc]
          · intro v _
            unfold unaryVal
            rw [if_neg (by simp [ht])]
            cases asInt v <;> rfl
  | plus =>
      rcases h with ⟨d, hd⟩
      refine ⟨d + 1, ?_⟩
      intro d' hd' cs
      rcases Nat.exists_eq_add_one.mpr (Nat.lt_of_lt_of_le (Nat.succ_pos d) hd') with ⟨d₀, rfl⟩
      have hk := hd d₀ (Nat.le_of_succ_le_succ hd') cs
      rw [show va.bind (unaryVal .plus ta) = va by cases va <;> rfl]
      exact hk
  | tilde =>
      have hmap := ((convert_i64 ta).bind maps_not).wrap fun z => (⟨some z, .i64⟩ : RV)
      refine h.unary (f := fun rv => do
        return ⟨some (← Gen.create (.bin .xor (← convert rv .i64 false) (cI64 (-1)))), .i64⟩)
        (hmap.congr ?_ ?_) (fun _ _ => rfl)
      · intro x _
        rw [bind_assoc]
      · intro v _
        unfold unaryVal
        cases asInt v <;> rfl
  | not =>
      have hmap := (((truthy_maps ta n.loc).bind maps_lnot).bind boolToI64_maps).wrap fun z =>
        (⟨some z, .i64⟩ : RV)
      refine h.unary (f := fun rv => do
        let z ← truthy rv n.loc
        return ⟨some (← boolToI64 (← Gen.create (.bin .xor z (.int 1 1)))), .i64⟩)
        (hmap.congr ?_ ?_) (fun _ _ => rfl)
      · intro x _
        simp only [bind_assoc]
      · intro v _
        change some _ = some _
        rw [ofBool_not]
  | _ => exact absurd hp (by decide)

theorem genBinary_arith {R : Rec} {cs : List Nat} {n : Node} {p : P} (hp : isArith p) :
    genBinary R cs n p a c =
      R.genExpr cs a >>= fun x => R.genExpr cs c >>= fun y => arith p x y n.loc := by
  cases p <;> first | rfl | exact absurd hp (by decide)

theorem not_isArith {p : P} (hp : isLogic p) : ¬isArith p = true := by
  cases p <;> first | exact absurd hp (by decide) | decide

/-- `&&` and `||` on the truth values of the operands. -/
theorem shortVal_eq (isAnd : Bool) :
    shortVal isAnd (va.bind fun v => some (.int (ofBool (truth v))))
      (vc.bind fun v => some (.int (ofBool (truth v)))) =
      logicVal (if isAnd then .andAnd else .orOr) ta tc va vc := by
  cases va with
  | none => cases isAnd <;> rfl
  | some v =>
      have hdec : decide (ofBool (truth v) ≠ 0) = truth v := by cases truth v <;> decide
      cases hv : truth v <;> cases isAnd <;> cases vc <;>
        simp_all [shortVal, logicVal, Val.int?]

theorem genBinary_short (isAnd : Bool) {d : Nat} {cs : List Nat} (n : Node) :
    (gen Γ (d + 1)).genExpr cs (.binary n (if isAnd then .andAnd else .orOr) a c) =
      shortCircuit isAnd ((gen Γ d).genExpr cs a >>= fun rv => truthy rv n.loc)
        ((gen Γ d).genExpr cs c >>= fun rv => truthy rv n.loc >>= boolToI64) := by
  have hgen : (gen Γ (d + 1)).genExpr cs (.binary n (if isAnd then .andAnd else .orOr) a c) =
      genShortCircuit (gen Γ d) cs n isAnd a c := by
    cases isAnd <;> rfl
  rw [hgen]
  unfold genShortCircuit shortCircuit joinShort
  simp only [bind_assoc]

theorem genShort_computes (isAnd : Bool) (ha : Γ.Computes a ta va) (hc : Γ.Computes c tc vc)
    (n : Node) : Γ.Computes (.binary n (if isAnd then .andAnd else .orOr) a c) .i64
      (logicVal (if isAnd then .andAnd else .orOr) ta tc va vc) := by
  rcases ha with ⟨d₁, h₁⟩
  rcases hc with ⟨d₂, h₂⟩
  refine ⟨max d₁ d₂ + 1, ?_⟩
  intro d' hd' cs
  rcases Nat.exists_eq_add_one.mpr (Nat.lt_of_lt_of_le (Nat.succ_pos _) hd') with ⟨d₀, rfl⟩
  have hle := Nat.le_of_succ_le_succ hd'
  have hx := (h₁ d₀ ((Nat.le_max_left _ _).trans hle) cs).bind
    (f := fun rv => truthy rv n.loc) (truthy_maps ta n.loc)
  have hy := (h₂ d₀ ((Nat.le_max_right _ _).trans hle) cs).bind
    (f := fun rv => truthy rv n.loc >>= boolToI64) ((truthy_maps tc n.loc).bind boolToI64_maps)
  rw [← shortVal_eq isAnd, genBinary_short]
  exact Codegen.Computes.shortCircuit isAnd hx hy

theorem genEq_computes (isEq : Bool) (ha : Γ.Computes a ta va) (hc : Γ.Computes c tc vc)
    (n : Node) : Γ.Computes (.binary n (eqOp isEq) a c) .i64
      (logicVal (eqOp isEq) ta tc va vc) := by
  have hval : logicVal (eqOp isEq) ta tc va vc = va.bind fun x => vc.bind fun y =>
      (eqVal isEq ta tc x y).map fun b => .int (ofBool b) := by
    cases isEq <;> rfl
  rw [hval]
  have hmap := ((cmp_maps isEq ta tc).andThen boolToI64_maps).wrap fun z => (⟨some z, .i64⟩ : RV)
  refine ha.binary hc (f := fun x y => do
    return ⟨some (← boolToI64 (← cmp (eqOp isEq) x y)), .i64⟩) (hmap.congr ?_ ?_) ?_
  · intro x y _ _
    simp only [bind_assoc]
  · intro v w _ _
    cases eqVal isEq ta tc v w <;> rfl
  · intro d cs
    cases isEq <;> rfl

theorem genLogic_computes {p : P} (hp : isLogic p) (ha : Γ.Computes a ta va)
    (hc : Γ.Computes c tc vc) (n : Node) :
    Γ.Computes (.binary n p a c) .i64 (logicVal p ta tc va vc) := by
  cases p with
  | andAnd => exact genShort_computes true ha hc n
  | orOr => exact genShort_computes false ha hc n
  | xorXor =>
      have hval : logicVal .xorXor ta tc va vc = va.bind fun x => vc.bind fun y =>
          some (.int (ofBool (truth x != truth y))) := by
        cases va <;> cases vc <;> rfl
      rw [hval]
      have hxor := (maps_bin 1 .xor).andThen boolToI64_maps
      have hmap := ((truthy_maps ta n.loc).bind₂ (truthy_maps tc n.loc) hxor).wrap fun z =>
        (⟨some z, .i64⟩ : RV)
      refine ha.binary hc (f := fun x y => do
        let x ← truthy x n.loc
        let y ← truthy y n.loc
        return ⟨some (← boolToI64 (← Gen.create (.bin .xor x y))), .i64⟩)
        (hmap.congr ?_ ?_) fun _ _ => rfl
      · intro x y _ _
        simp only [bind_assoc]
      · intro v w _ _
        cases truth v <;> cases truth w <;> rfl
  | eqEq => exact genEq_computes true ha hc n
  | ne => exact genEq_computes false ha hc n
  | _ => exact absurd hp (by decide)

end

/-- The code of `genExpr` for a constant expression computes its value. -/
theorem Constant.computes {Γ : Env} {e : Expr} (h : Constant Γ e) :
    Γ.Computes e (rtType e) (Γ.rtVal e) := by
  induction h with
  | intLit n v => exact .int fun _ _ => rfl
  | charLit n v => exact .int fun _ _ => rfl
  | floatLit n d =>
      refine .leaf rfl ?_ (fun _ _ => rfl) ?_ fun _ _ => rfl
      · intro n
        exact trivial
      · rfl
  | sizeofType n t => exact .int fun _ _ => rfl
  | @offsetOf n c m r v h =>
      unfold Env.rtVal
      rw [h]
      refine .int ?_
      intro d cs
      change genExprStep Γ (gen Γ d) cs (.offsetOf n c m r) = _
      simp only [genExprStep, h]
  | cast n size uns h ih =>
      refine ih.unary (f := fun rv => do
        return ⟨some (← convert rv (.int size uns)), .int size uns⟩) ?_ fun _ _ => rfl
      exact (convert_int _ size uns).wrap fun z => (⟨some z, .int size uns⟩ : RV)
  | unary n hp h ih => exact genUnary_computes hp ih n
  | arith n hp ha hc iha ihc =>
      unfold rtType Env.rtVal
      rw [if_pos hp, if_pos hp]
      refine iha.binary ihc (f := fun x y => Codegen.arith _ x y n.loc)
        (arith_maps hp ha.rtType_isPtr hc.rtType_isPtr n.loc) ?_
      intro d cs
      exact genBinary_arith hp
  | logic n hp ha hc iha ihc =>
      unfold rtType Env.rtVal
      rw [if_neg (not_isArith hp), if_neg (not_isArith hp)]
      exact genLogic_computes hp iha ihc n

/-! ## The value that code leaves -/

section

variable {α : Type} {g : Nat → List Nat → Gen α} {out : α → Option Value}

/-- From some depth on, the generator `g` succeeds without a diagnostic and the code
it appends runs to its end and leaves the value `v`. -/
def Delivers (g : Nat → List Nat → Gen α) (out : α → Option Value) (v : Val) : Prop :=
  ∃ d, ∀ d', d ≤ d' → ∀ cs (B : Builder), B.Wf → ∃ a val B', g d' cs B = .ok (a, B') ∧
    out a = some val ∧ B'.errors = B.errors ∧
      ∀ W ρ m, ∃ ρ', Runs W B B' ρ m ρ' m ∧ val.eval W ρ' = v

theorem Delivers.of_computes {r : Value → α} {ty : LTy} {v : Val}
    (h : ∃ d, ∀ d', d ≤ d' → ∀ cs, Codegen.Computes (g d' cs) r ty (some v))
    (hout : ∀ val, out (r val) = some val) : Delivers g out v := by
  rcases h with ⟨d, hd⟩
  refine ⟨d, ?_⟩
  intro d' hd' cs B hB
  rcases (hd d' hd' cs).runs B hB with ⟨val, B', heq, hleaves, hrun⟩
  refine ⟨r val, val, B', heq, hout val, hleaves.errors, ?_⟩
  intro W ρ m
  rcases hrun W ρ m v rfl with ⟨ρ', hemits, hval⟩
  exact ⟨ρ', hemits.runs, hval⟩

/-- Code leaves one value only. -/
theorem Delivers.unique {v w : Val} (hv : Delivers g out v) (hw : Delivers g out w) : v = w := by
  rcases hv with ⟨d₁, h₁⟩
  rcases hw with ⟨d₂, h₂⟩
  have hwf : ({} : Builder).Wf := ⟨Nat.zero_lt_one, fun _ _ => rfl⟩
  rcases h₁ (max d₁ d₂) (Nat.le_max_left _ _) [] {} hwf with ⟨a, x, B, heq, hx, _, hrun⟩
  rcases h₂ (max d₁ d₂) (Nat.le_max_right _ _) [] {} hwf with ⟨a', y, B', heq', hy, _, hrun'⟩
  rw [heq] at heq'
  rcases Prod.mk.inj (Except.ok.inj heq') with ⟨rfl, rfl⟩
  rcases Option.some.inj (hx.symm.trans hy) with rfl
  rcases hrun .still (fun _ => .int 0) (fun _ => 0) with ⟨ρ₁, hr₁, hx₁⟩
  rcases hrun' .still (fun _ => .int 0) (fun _ => 0) with ⟨ρ₂, hr₂, hx₂⟩
  rw [← hx₁, ← hx₂, (hr₁.unique hr₂).1]

end

/-- The code of `genExpr` for `e` leaves the value `v`. -/
def Env.CodeGives (Γ : Env) (e : Expr) (v : Val) : Prop :=
  Delivers (fun d cs => (gen Γ d).genExpr cs e) RV.v v

/-- The code of `genExpr` for `e`, converted to type `t`, leaves the value `v`. -/
def Env.CodeConverts (Γ : Env) (e : Expr) (t : Ty) (v : Val) : Prop :=
  Delivers (fun d cs => (gen Γ d).genExpr cs e >>= fun rv => convert rv t) some v

theorem Env.Computes.codeGives {Γ : Env} {e : Expr} {t : Ty} {v : Val}
    (h : Γ.Computes e t (some v)) : Γ.CodeGives e v :=
  .of_computes h fun _ => rfl

/-- The parts of a constant expression, itself included. -/
def parts : Expr → List Expr
  | .cast n k t => .cast n k t :: parts k
  | .unary n p pre k => .unary n p pre k :: parts k
  | .binary n p a c => .binary n p a c :: (parts a ++ parts c)
  | e => [e]

theorem mem_parts_self (e : Expr) : e ∈ parts e := by
  cases e <;> exact List.mem_cons_self

/-- A property of all parts, from those of the operands and the node itself. -/
theorem parts_iff {Q R : Expr → Prop} {e : Expr} {l : List Expr}
    (hl : (∀ s ∈ l, Q s) ↔ ∀ s ∈ l, R s) (he : (∀ s ∈ l, Q s) → (Q e ↔ R e)) :
    (∀ s ∈ e :: l, Q s) ↔ ∀ s ∈ e :: l, R s := by
  rw [List.forall_mem_cons, List.forall_mem_cons, ← hl]
  constructor
  · rintro ⟨hq, hall⟩
    exact ⟨(he hall).mp hq, hall⟩
  · rintro ⟨hr, hall⟩
    exact ⟨(he hall).mpr hr, hall⟩

end Hlang.Codegen
