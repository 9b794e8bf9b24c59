import Hlang.Codegen.Compute
import Hlang.Codegen.Expr
import Hlang.Ir.Fields

/-!
# Hlang.Codegen.Operators — what the code of an operator computes

The operators of the language on values, as the code of `convert`, `truthy`,
`arith` and `cmp` computes them from the static types of the operands. An
operation that LLVM leaves undefined has no value.
-/

namespace Hlang.Codegen

open Ir

/-- The LLVM type of an rvalue of type `t`. -/
def valTy (t : Ty) : LTy := if t.isF64 then .double else .int 64

/-! ## Conversions -/

/-- A value converted to an integer. -/
def asInt : Val → Option I64
  | .int i => some i
  | .fp q => toI64? q

/-- A value of type `t` converted to a double. -/
def asFp (t : Ty) : Val → ℚ
  | .int i =>
      match t with
      | .int 8 true => i.toNat
      | _ => i.toInt
  | .fp q => q

/-- An integer normalised to an integer type of `n` bytes. -/
def castInt (n : Nat) (uns : Bool) (i : I64) : I64 :=
  if 0 < n ∧ n < 8 then (if uns then lowBits (n * 8) i else signBits (n * 8) i) else i

/-- The truth of a value. -/
def truth : Val → Bool
  | .int i => i ≠ 0
  | .fp q => q ≠ 0

section Specs

variable {t : Ty} {ty : LTy}

theorem fits_int_cases {v : Val} {bits : Nat} (h : v.Fits (.int bits)) : ∃ i, v = .int i := by
  cases v with
  | int i => exact ⟨i, rfl⟩
  | fp q => cases h

theorem fits_double_cases {v : Val} (h : v.Fits .double) : ∃ q, v = .fp q := by
  cases v with
  | int i => exact absurd rfl h
  | fp q => exact ⟨q, rfl⟩

theorem ptrToI64_eq {x : Value} {bits : Nat} (h : x.type = .int bits) : ptrToI64 x = pure x := by
  unfold ptrToI64
  rw [h, if_neg (by simp)]

theorem evalInt_of_eval {W : World} {ρ : Regs} {x : Value} {i : I64} (h : x.eval W ρ = .int i) :
    x.evalInt W ρ = some i := by
  unfold Value.evalInt
  rw [h]
  rfl

theorem evalFp_of_eval {W : World} {ρ : Regs} {x : Value} {q : ℚ} (h : x.eval W ρ = .fp q) :
    x.evalFp W ρ = some q := by
  unfold Value.evalFp
  rw [h]
  rfl

/-- An instruction that takes an integer to a value of type `ty`. -/
theorem maps_int {bits : Nat} {mk : Value → Op} {ty : LTy} {F : I64 → Option Val}
    (hfits : ∀ i w, F i = some w → w.Fits ty) (htype : ∀ x, x.type = .int bits → (mk x).type = ty)
    (hF : ∀ W ρ m x i, x.type = .int bits → x.evalInt W ρ = some i → (mk x).eval W ρ m = F i) :
    Maps (fun x => Gen.create (mk x)) id (.int bits) ty fun v => v.int?.bind F := by
  refine Maps.create ?_ htype ?_
  · intro v w _ hw
    rcases Option.bind_eq_some_iff.mp hw with ⟨i, _, hi⟩
    exact hfits i w hi
  · intro W ρ m x htx hx
    cases hv : x.eval W ρ with
    | int i => exact hF W ρ m x i htx (evalInt_of_eval hv)
    | fp q =>
        rw [hv] at hx
        cases hx

/-- An instruction that takes a double to a value of type `ty`. -/
theorem maps_fp {mk : Value → Op} {ty : LTy} {F : ℚ → Option Val}
    (hfits : ∀ i w, F i = some w → w.Fits ty) (htype : ∀ x, (mk x).type = ty)
    (hF : ∀ W ρ m x q, x.evalFp W ρ = some q → (mk x).eval W ρ m = F q) :
    Maps (fun x => Gen.create (mk x)) id .double ty fun v => v.fp?.bind F := by
  refine Maps.create ?_ (fun x _ => htype x) ?_
  · intro v w _ hw
    rcases Option.bind_eq_some_iff.mp hw with ⟨i, _, hi⟩
    exact hfits i w hi
  · intro W ρ m x _ hx
    rcases fits_double_cases hx with ⟨q, hq⟩
    rw [hF W ρ m x q (evalFp_of_eval hq), hq]
    rfl

end Specs

theorem valTy_f64 {t : Ty} (h : t.isF64 = true) : valTy t = .double := by
  unfold valTy
  rw [if_pos h]

theorem valTy_other {t : Ty} (h : t.isF64 = false) : valTy t = .int 64 := by
  unfold valTy
  rw [h]
  rfl

/-! ### The instructions -/

/-- An instruction from one integer to another. -/
theorem maps_int_int {b b' : Nat} {mk : Value → Op} {F : I64 → I64}
    (htype : ∀ x, x.type = .int b → (mk x).type = .int b')
    (hF : ∀ W ρ m x i, x.type = .int b → x.evalInt W ρ = some i →
      (mk x).eval W ρ m = some (.int (F i))) :
    Maps (fun x => Gen.create (mk x)) id (.int b) (.int b') fun v =>
      v.int?.bind fun i => some (.int (F i)) := by
  refine maps_int ?_ htype hF
  intro i w hw
  rcases Option.some.inj hw with rfl
  exact fun h => by cases h

theorem maps_uitofp : Maps (fun x => Gen.create (.uitofp x)) id (.int 64) .double fun v =>
    v.int?.bind fun i => some (.fp i.toNat) := by
  refine maps_int ?_ ?_ ?_
  · intro i w hw
    rcases Option.some.inj hw with rfl
    rfl
  · intro x _
    rfl
  · intro W ρ m x i _ hi
    simp [Op.eval, hi]

theorem maps_sitofp : Maps (fun x => Gen.create (.sitofp x)) id (.int 64) .double fun v =>
    v.int?.bind fun i => some (.fp i.toInt) := by
  refine maps_int ?_ ?_ ?_
  · intro i w hw
    rcases Option.some.inj hw with rfl
    rfl
  · intro x _
    rfl
  · intro W ρ m x i _ hi
    simp [Op.eval, hi]

theorem maps_fptosi : Maps (fun x => Gen.create (.fptosi x)) id .double (.int 64) fun v =>
    v.fp?.bind fun q => (toI64? q).map .int := by
  refine maps_fp ?_ (fun _ => rfl) ?_
  · intro q w hw
    rcases Option.map_eq_some_iff.mp hw with ⟨i, _, rfl⟩
    exact fun h => by cases h
  · intro W ρ m x q hq
    cases hc : toI64? q <;> simp [Op.eval, hq, hc]

theorem maps_trunc (bits : Nat) : Maps (fun x => Gen.create (.trunc bits x)) id (.int 64)
    (.int bits) fun v => v.int?.bind fun i => some (.int (lowBits bits i)) := by
  refine maps_int_int (fun _ _ => rfl) ?_
  intro W ρ m x i _ hi
  simp [Op.eval, hi]

theorem maps_zext (bits : Nat) : Maps (fun x => Gen.create (.zext x)) id (.int bits)
    (.int 64) fun v => v.int?.bind fun i => some (.int i) := by
  refine maps_int_int (fun _ _ => rfl) ?_
  intro W ρ m x i _ hi
  simp [Op.eval, hi]

theorem maps_sext (bits : Nat) : Maps (fun x => Gen.create (.sext x)) id (.int bits)
    (.int 64) fun v => v.int?.bind fun i => some (.int (signBits bits i)) := by
  refine maps_int_int (fun _ _ => rfl) ?_
  intro W ρ m x i hx hi
  simp [Op.eval, hi, hx]

/-! ### `convert`, `truthy`, `boolToI64` -/

theorem convert_f64 (t : Ty) : Maps (fun x => convert ⟨some x, t⟩ .f64) id (valTy t) .double
    fun v => some (.fp (asFp t v)) := by
  cases ht : t.isF64 with
  | true =>
      rw [valTy_f64 ht]
      refine Maps.pure.congr ?_ ?_
      · intro x hx
        simp [convert, hx, Ty.isF64]
      · intro v hv
        rcases fits_double_cases hv with ⟨q, rfl⟩
        rfl
  | false =>
      rw [valTy_other ht]
      by_cases hu : t = .int 8 true
      · subst hu
        refine maps_uitofp.congr ?_ ?_
        · intro x hx
          simp [convert, hx, Ty.isF64, ptrToI64_eq hx]
        · intro v hv
          rcases fits_int_cases hv with ⟨i, rfl⟩
          rfl
      · refine maps_sitofp.congr ?_ ?_
        · intro x hx
          simp only [convert, hx, Ty.isF64, ptrToI64_eq hx, if_true, reduceCtorEq, if_false,
            pure_bind]
        · intro v hv
          rcases fits_int_cases hv with ⟨i, rfl⟩
          simp only [asFp, Val.int?, Option.bind_some]

/-- `convert` to `I64`, before a narrow type normalises. -/
theorem convert_i64 (t : Ty) : Maps (fun x => convert ⟨some x, t⟩ .i64 false) id (valTy t)
    (.int 64) fun v => (asInt v).map .int := by
  cases ht : t.isF64 with
  | true =>
      rw [valTy_f64 ht]
      refine maps_fptosi.congr ?_ ?_
      · intro x hx
        simp [convert, hx, Ty.isF64, Ty.i64]
      · intro v hv
        rcases fits_double_cases hv with ⟨q, rfl⟩
        rfl
  | false =>
      rw [valTy_other ht]
      refine Maps.pure.congr ?_ ?_
      · intro x hx
        simp [convert, hx, Ty.isF64, Ty.i64, ptrToI64_eq hx]
      · intro v hv
        rcases fits_int_cases hv with ⟨i, rfl⟩
        rfl

/-- `convert` to an integer type. -/
theorem convert_int (t : Ty) (n : Nat) (uns : Bool) :
    Maps (fun x => convert ⟨some x, t⟩ (.int n uns)) id (valTy t) (.int 64)
      fun v => (asInt v).map fun i => .int (castInt n uns i) := by
  have hbase := convert_i64 t
  by_cases hn : 0 < n ∧ n < 8
  · have hext : Maps (fun x => Gen.create (.trunc (n * 8) x) >>= fun y =>
        if uns then Gen.create (.zext y) else Gen.create (.sext y)) id (.int 64) (.int 64)
        fun v => v.int?.bind fun i => some (.int (castInt n uns i)) := by
      cases uns with
      | true =>
          refine ((maps_trunc (n * 8)).bind (maps_zext (n * 8))).congr (fun _ _ => rfl) ?_
          intro v hv
          rcases fits_int_cases hv with ⟨i, rfl⟩
          simp [castInt, hn, Val.int?]
      | false =>
          refine ((maps_trunc (n * 8)).bind (maps_sext (n * 8))).congr (fun _ _ => rfl) ?_
          intro v hv
          rcases fits_int_cases hv with ⟨i, rfl⟩
          simp [castInt, hn, Val.int?, signBits_lowBits]
    refine (hbase.bind hext).congr ?_ ?_
    · intro x _
      by_cases hd : x.type = .double <;> simp [convert, Ty.isF64, Ty.i64, hn, hd]
    · intro v _
      cases asInt v <;> rfl
  · refine hbase.congr ?_ ?_
    · intro x _
      simp [convert, Ty.isF64, Ty.i64, hn]
    · intro v _
      simp [castInt, hn]

/-- `truthy` of a value. -/
theorem truthy_maps (t : Ty) (loc : SrcLoc) : Maps (fun x => truthy ⟨some x, t⟩ loc) id (valTy t)
    (.int 1) fun v => some (.int (ofBool (truth v))) := by
  cases ht : t.isF64 with
  | true =>
      rw [valTy_f64 ht]
      have hcmp : Maps (fun x => Gen.create (.fcmp .one x (.fp 0))) id .double (.int 1) fun v =>
          v.fp?.bind fun q => some (.int (ofBool (truth (.fp q)))) := by
        refine maps_fp ?_ (fun _ => rfl) ?_
        · intro q w hw
          rcases Option.some.inj hw with rfl
          exact fun h => by cases h
        · intro W ρ m x q hq
          simp [Op.eval, hq, FCmp.eval, truth]
      refine hcmp.congr ?_ ?_
      · intro x hx
        simp [truthy, hx]
      · intro v hv
        rcases fits_double_cases hv with ⟨q, rfl⟩
        rfl
  | false =>
      rw [valTy_other ht]
      have hcmp : Maps (fun x => Gen.create (.icmp .ne x (cI64 0))) id (.int 64) (.int 1) fun v =>
          v.int?.bind fun i => some (.int (ofBool (truth (.int i)))) := by
        refine maps_int_int (fun _ _ => rfl) ?_
        intro W ρ m x i _ hi
        simp [Op.eval, hi, cI64, ICmp.eval, truth]
      refine hcmp.congr ?_ ?_
      · intro x hx
        simp [truthy, hx, ptrToI64_eq hx]
      · intro v hv
        rcases fits_int_cases hv with ⟨i, rfl⟩
        rfl

theorem boolToI64_maps : Maps boolToI64 id (.int 1) (.int 64) fun v =>
    v.int?.bind fun i => some (.int i) := maps_zext 1

/-! ## Arithmetic -/

/-- The operators `arith` is called with. -/
def isArith : P → Bool
  | .plus | .minus | .star | .slash | .percent | .amp | .pipe | .caret | .shl | .shr | .pow => true
  | _ => false

/-- The type of an arithmetic result; there are no pointers among the operands. -/
def arithTy (op : P) (ta tc : Ty) : Ty :=
  if (ta.isF64 || tc.isF64) && !isBitwise op then .f64
  else if op = .pow then .i64
  else if isU64 ta || isU64 tc then .u64 else .i64

theorem arithTy_isPtr (op : P) (ta tc : Ty) : (arithTy op ta tc).isPtr = false := by
  unfold arithTy
  split_ifs <;> rfl

theorem arithTy_isF64 {op : P} {ta tc : Ty} (ha : ta.isF64 = false) (hc : tc.isF64 = false) :
    (arithTy op ta tc).isF64 = false := by
  unfold arithTy
  rw [ha, hc]
  split_ifs <;> first | rfl | simp_all

/-- An operator on integers: unsigned when an operand is (`uns`), a shift to
the right when the left one is (`unsLeft`). -/
def intOp (op : P) (uns unsLeft : Bool) (x y : I64) : Option I64 :=
  match op with
  | .plus => some (x + y)
  | .minus => some (x - y)
  | .star => some (x * y)
  | .slash => if uns then BinOp.udiv.eval x y else BinOp.sdiv.eval x y
  | .percent => if uns then BinOp.urem.eval x y else BinOp.srem.eval x y
  | .amp => some (x &&& y)
  | .pipe => some (x ||| y)
  | .caret => some (x ^^^ y)
  | .shl => some (x <<< (y &&& 63).toNat)
  | .shr => some (if unsLeft then x >>> (y &&& 63).toNat else x.sshiftRight (y &&& 63).toNat)
  | .pow => some (Runtime.hcPowI64 x y)
  | _ => none

/-- An operator on doubles; the power is a function of the C library. -/
def fpOp (op : P) (x y : ℚ) : Option ℚ :=
  match op with
  | .plus => some (x + y)
  | .minus => some (x - y)
  | .star => some (x * y)
  | .slash => FBinOp.fdiv.eval x y
  | .percent => FBinOp.frem.eval x y
  | _ => none

/-- The value of an arithmetic operator on operands of types `ta` and `tc`. -/
def arithVal (op : P) (ta tc : Ty) (va vc : Val) : Option Val :=
  if (ta.isF64 || tc.isF64) && !isBitwise op then (fpOp op (asFp ta va) (asFp tc vc)).map .fp
  else (asInt va).bind fun x => (asInt vc).bind fun y =>
    (intOp op (isU64 ta || isU64 tc) (isU64 ta) x y).map .int

theorem maps_bin (bits : Nat) (o : BinOp) : Maps₂ (fun x y => Gen.create (.bin o x y)) id
    (.int bits) (.int bits) (.int bits) fun v w => v.int?.bind fun x => w.int?.bind fun y => (o.eval x y).map .int := by
  refine Maps₂.create ?_ ?_ ?_
  · intro v w u hv hw hu
    rcases fits_int_cases hv with ⟨x, rfl⟩
    rcases fits_int_cases hw with ⟨y, rfl⟩
    rcases Option.map_eq_some_iff.mp hu with ⟨i, _, rfl⟩
    exact fun h => by cases h
  · intro x y hx _
    exact hx
  · intro W ρ m x y hx hy
    rcases fits_int_cases hx with ⟨i, hi⟩
    rcases fits_int_cases hy with ⟨j, hj⟩
    rw [hi, hj]
    cases ho : o.eval i j <;>
      simp [Op.eval, evalInt_of_eval hi, evalInt_of_eval hj, ho, Val.int?]

theorem maps_fbin (o : FBinOp) : Maps₂ (fun x y => Gen.create (.fbin o x y)) id .double .double
    .double fun v w => v.fp?.bind fun x => w.fp?.bind fun y => (o.eval x y).map .fp := by
  refine Maps₂.create ?_ ?_ ?_
  · intro v w u hv hw hu
    rcases fits_double_cases hv with ⟨x, rfl⟩
    rcases fits_double_cases hw with ⟨y, rfl⟩
    rcases Option.map_eq_some_iff.mp hu with ⟨i, _, rfl⟩
    rfl
  · intro x y _ _
    rfl
  · intro W ρ m x y hx hy
    rcases fits_double_cases hx with ⟨i, hi⟩
    rcases fits_double_cases hy with ⟨j, hj⟩
    rw [hi, hj]
    cases ho : o.eval i j <;>
      simp [Op.eval, evalFp_of_eval hi, evalFp_of_eval hj, ho, Val.fp?]

/-- A call of a function of the runtime on two values. -/
theorem maps_call {ty : LTy} (hty : ty ≠ .void) (name : String) {tx ty' : LTy}
    {F : Val → Val → Option Val} (hfits : ∀ v w u, v.Fits tx → w.Fits ty' → F v w = some u → u.Fits ty)
    (hF : ∀ W m ρ v w u, v.Fits tx → w.Fits ty' → F v w = some u →
      callVal W m ρ (.fn name) [v, w] = some (some u, m)) :
    Maps₂ (fun x y => Gen.createCall ty (.fn name) [x, y]) some tx ty' ty F := by
  refine ⟨hfits, ?_⟩
  intro B x y hB _ _ _ _
  refine ⟨.reg ty B.nextReg, (B.push (.call (some B.nextReg) (.fn name) [x, y])).bump, ?_, ?_, ?_⟩
  · unfold Gen.createCall
    rw [if_neg hty]
    rfl
  · exact ⟨(Builder.Le.push B _).trans (.bump _), (hB.push _).bump, Nat.lt_succ_self _, rfl, rfl⟩
  · intro W ρ m u hx hy hu
    have hcall : callVal W m ρ (.fn name) ([x, y].map fun z => z.eval W ρ) = some (some u, m) :=
      hF W m ρ _ _ u hx hy hu
    refine ⟨Function.update ρ B.nextReg u, Emits.bump (Emits.push ?_ ?_), Function.update_self _ _ _⟩
    · intro prev
      unfold Instr.run
      dsimp only [Builder.here]
      rw [hcall]
      rfl
    · intro r hr
      exact Function.update_of_ne (Nat.ne_of_lt hr) _ _

theorem and63_lt (y : I64) : (y &&& 63).toNat < 64 := by
  rw [BitVec.toNat_and]
  exact Nat.lt_of_le_of_lt Nat.and_le_right (by decide)

/-- A shift by a count masked to six bits. -/
theorem maps_shift (o : BinOp) {F : I64 → I64 → I64}
    (hF : ∀ x y : I64, y.toNat < 64 → o.eval x y = some (F x y)) :
    Maps₂ (fun x y => Gen.create (.bin .and y (cI64 63)) >>= fun c => Gen.create (.bin o x c)) id
      (.int 64) (.int 64) (.int 64) fun v w => v.int?.bind fun x => w.int?.bind fun y =>
        some (.int (F x (y &&& 63))) := by
  have hmask : Maps (fun y => Gen.create (.bin .and y (cI64 63))) id (.int 64) (.int 64) fun v =>
      v.int?.bind fun i => some (.int (i &&& 63)) := by
    refine maps_int_int (fun _ hx => hx) ?_
    intro W ρ m x i _ hi
    simp [Op.eval, hi, cI64, BinOp.eval]
  refine (Maps.pure.bind₂ hmask (maps_bin 64 o)).congr ?_ ?_
  · intro x y _ _
    simp
  · intro v w hv hw
    rcases fits_int_cases hv with ⟨x, rfl⟩
    rcases fits_int_cases hw with ⟨y, rfl⟩
    have hshift := hF x (y &&& 63) (and63_lt y)
    simpa [Val.int?] using hshift

section Arith

variable {op : P} {ta tc : Ty}

theorem isDouble_eq {x : Value} {t : Ty} (h : x.type = valTy t) :
    RV.isDouble ⟨some x, t⟩ = t.isF64 := by
  unfold RV.isDouble
  rw [Option.any_some, h]
  cases ht : t.isF64 with
  | true => simp [valTy_f64 ht]
  | false => simp [valTy_other ht]

/-- The call of `HC_Pow` is left out: its result is the world's. -/
theorem arithDouble_maps (hop : isArith op) (hbits : isBitwise op = false) (loc : SrcLoc) :
    Maps₂ (fun x y => arithDouble op x y loc) (fun z => ⟨some z, .f64⟩) .double .double .double
      fun v w => v.fp?.bind fun x => w.fp?.bind fun y => (fpOp op x y).map .fp := by
  have hbin (o : FBinOp) := (maps_fbin o).wrap fun z => (⟨some z, .f64⟩ : RV)
  cases op with
  | plus => exact hbin .fadd
  | minus => exact hbin .fsub
  | star => exact hbin .fmul
  | slash => exact hbin .fdiv
  | percent => exact hbin .frem
  | pow =>
      have hcall : Maps₂ (fun x y => Gen.createCall .double (.fn "HC_Pow") [x, y]) some .double
          .double .double fun _ _ => none :=
        maps_call (by decide) "HC_Pow" (fun _ _ _ _ _ h => by cases h)
          (fun _ _ _ _ _ _ _ _ h => by cases h)
      refine (hcall.wrap fun z => (⟨z, .f64⟩ : RV)).congr (fun _ _ _ _ => rfl) ?_
      intro v w hv hw
      rcases fits_double_cases hv with ⟨x, rfl⟩
      rcases fits_double_cases hw with ⟨y, rfl⟩
      rfl
  | amp | pipe | caret | shl | shr => exact absurd hbits (by decide)
  | _ => exact absurd hop (by decide)

theorem hcPow_maps : Maps₂ (fun x y => Gen.createCall (.int 64) (.fn "HC_PowI64") [x, y]) some
    (.int 64) (.int 64) (.int 64) fun v w => v.int?.bind fun x => w.int?.bind fun y =>
      some (.int (Runtime.hcPowI64 x y)) := by
  refine maps_call (by decide) "HC_PowI64" ?_ ?_
  · intro v w u hv hw hu
    rcases fits_int_cases hv with ⟨x, rfl⟩
    rcases fits_int_cases hw with ⟨y, rfl⟩
    rcases Option.some.inj hu with rfl
    exact fun h => by cases h
  · intro W m ρ v w u hv hw hu
    rcases fits_int_cases hv with ⟨x, rfl⟩
    rcases fits_int_cases hw with ⟨y, rfl⟩
    rcases Option.some.inj hu with rfl
    rfl

/-- The type of the result of `arithInt`. -/
def arithIntTy (op : P) (rt : Ty) : Ty := if op = .pow then .i64 else rt

theorem arithInt_maps (hop : isArith op) (uns unsLeft : Bool) (rt : Ty) (loc : SrcLoc) :
    Maps₂ (fun x y => arithInt op uns unsLeft rt x y loc)
      (fun z => ⟨some z, arithIntTy op rt⟩) (.int 64) (.int 64) (.int 64)
      fun v w => v.int?.bind fun x => w.int?.bind fun y => (intOp op uns unsLeft x y).map .int := by
  have hbin (o : BinOp) := (maps_bin 64 o).wrap fun z => (⟨some z, rt⟩ : RV)
  have hshift (o : BinOp) (F : I64 → I64 → I64)
      (hF : ∀ x y : I64, y.toNat < 64 → o.eval x y = some (F x y)) :=
    (maps_shift o hF).wrap fun z => (⟨some z, rt⟩ : RV)
  cases op with
  | plus => exact hbin .add
  | minus => exact hbin .sub
  | star => exact hbin .mul
  | slash => cases uns with
    | true => exact hbin .udiv
    | false => exact hbin .sdiv
  | percent => cases uns with
    | true => exact hbin .urem
    | false => exact hbin .srem
  | amp => exact hbin .and
  | pipe => exact hbin .or
  | caret => exact hbin .xor
  | shl => exact hshift .shl (fun x y => x <<< y.toNat) fun x y hy => if_pos hy
  | shr => cases unsLeft with
    | true => exact hshift .lshr (fun x y => x >>> y.toNat) fun x y hy => if_pos hy
    | false => exact hshift .ashr (fun x y => x.sshiftRight y.toNat) fun x y hy => if_pos hy
  | pow => exact hcPow_maps.wrap fun z => (⟨z, .i64⟩ : RV)
  | _ => exact absurd hop (by decide)

/-- `arith` computes its operator by the types of its operands. -/
theorem arith_maps (hop : isArith op) (hta : ta.isPtr = false) (htc : tc.isPtr = false)
    (loc : SrcLoc) : Maps₂ (fun x y => arith op ⟨some x, ta⟩ ⟨some y, tc⟩ loc)
      (fun z => ⟨some z, arithTy op ta tc⟩) (valTy ta) (valTy tc) (valTy (arithTy op ta tc))
      (arithVal op ta tc) := by
  cases hd : (ta.isF64 || tc.isF64) && !isBitwise op with
  | true =>
      have hbits : isBitwise op = false := by simp_all
      have hty : arithTy op ta tc = .f64 := by
        unfold arithTy
        rw [hd, if_pos rfl]
      rw [hty]
      refine ((convert_f64 ta).bind₂ (convert_f64 tc) (arithDouble_maps hop hbits loc)).congr ?_ ?_
      · intro x y hx hy
        unfold arith
        rw [isDouble_eq hx, isDouble_eq hy, hd, if_pos rfl]
      · intro v w _ _
        unfold arithVal
        rw [hd]
        rfl
  | false =>
      have hty : arithTy op ta tc =
          arithIntTy op (if isU64 ta || isU64 tc then .u64 else .i64) := by
        unfold arithTy arithIntTy
        rw [hd]
        rfl
      have hval : valTy (arithTy op ta tc) = .int 64 := by
        rw [hty]
        unfold arithIntTy
        split_ifs <;> rfl
      rw [hval, hty]
      refine ((convert_i64 ta).bind₂ (convert_i64 tc)
        (arithInt_maps hop (isU64 ta || isU64 tc) (isU64 ta) _ loc)).congr ?_ ?_
      · intro x y hx hy
        unfold arith
        rw [isDouble_eq hx, isDouble_eq hy, hd, hta, htc]
        rfl
      · intro v w _ _
        unfold arithVal
        rw [hd]
        cases asInt v <;> cases asInt w <;> rfl

end Arith

/-! ## Comparison -/

/-- `==` (or `!=`) on values of types `ta` and `tc`. -/
def eqVal (isEq : Bool) (ta tc : Ty) (va vc : Val) : Option Bool :=
  if ta.isF64 || tc.isF64 then some (decide (asFp ta va = asFp tc vc) == isEq)
  else (asInt va).bind fun x => (asInt vc).map fun y => decide (x = y) == isEq

/-- `==` or `!=`. -/
def eqOp (isEq : Bool) : P := if isEq then .eqEq else .ne

theorem maps_icmp (isEq : Bool) : Maps₂ (fun x y => cmpInt (eqOp isEq) false x y) id (.int 64)
    (.int 64) (.int 1) fun v w => v.int?.bind fun x => w.int?.bind fun y =>
      some (.int (ofBool (decide (x = y) == isEq))) := by
  have hcmp (c : ICmp) : Maps₂ (fun x y => Gen.create (.icmp c x y)) id (.int 64) (.int 64) (.int 1)
      fun v w => v.int?.bind fun x => w.int?.bind fun y => some (.int (ofBool (c.eval x y))) := by
    refine Maps₂.create ?_ (fun _ _ _ _ => rfl) ?_
    · intro v w u hv hw hu
      rcases fits_int_cases hv with ⟨x, rfl⟩
      rcases fits_int_cases hw with ⟨y, rfl⟩
      rcases Option.some.inj hu with rfl
      exact fun h => by cases h
    · intro W ρ m x y hx hy
      rcases fits_int_cases hx with ⟨i, hi⟩
      rcases fits_int_cases hy with ⟨j, hj⟩
      rw [hi, hj]
      simp [Op.eval, evalInt_of_eval hi, evalInt_of_eval hj, Val.int?]
  cases isEq with
  | true => exact (hcmp .eq).congr (fun _ _ _ _ => rfl) fun v w _ _ => by simp [ICmp.eval]
  | false => exact (hcmp .ne).congr (fun _ _ _ _ => rfl) fun v w _ _ => by simp [ICmp.eval]

theorem cmpInt_eqOp (isEq uns : Bool) (x y : Value) :
    cmpInt (eqOp isEq) uns x y = cmpInt (eqOp isEq) false x y := by
  cases isEq <;> rfl

theorem maps_fcmp (isEq : Bool) : Maps₂ (fun x y => cmpDouble (eqOp isEq) x y) id .double
    .double (.int 1) fun v w => v.fp?.bind fun x => w.fp?.bind fun y =>
      some (.int (ofBool (decide (x = y) == isEq))) := by
  have hcmp (c : FCmp) : Maps₂ (fun x y => Gen.create (.fcmp c x y)) id .double .double (.int 1)
      fun v w => v.fp?.bind fun x => w.fp?.bind fun y => some (.int (ofBool (c.eval x y))) := by
    refine Maps₂.create ?_ (fun _ _ _ _ => rfl) ?_
    · intro v w u hv hw hu
      rcases fits_double_cases hv with ⟨x, rfl⟩
      rcases fits_double_cases hw with ⟨y, rfl⟩
      rcases Option.some.inj hu with rfl
      exact fun h => by cases h
    · intro W ρ m x y hx hy
      rcases fits_double_cases hx with ⟨i, hi⟩
      rcases fits_double_cases hy with ⟨j, hj⟩
      rw [hi, hj]
      simp [Op.eval, evalFp_of_eval hi, evalFp_of_eval hj, Val.fp?]
  cases isEq with
  | true => exact (hcmp .oeq).congr (fun _ _ _ _ => rfl) fun v w _ _ => by simp [FCmp.eval]
  | false => exact (hcmp .one).congr (fun _ _ _ _ => rfl) fun v w _ _ => by simp [FCmp.eval]

theorem cmp_maps (isEq : Bool) (ta tc : Ty) :
    Maps₂ (fun x y => cmp (eqOp isEq) ⟨some x, ta⟩ ⟨some y, tc⟩) id (valTy ta) (valTy tc) (.int 1)
      fun v w => (eqVal isEq ta tc v w).map fun b => .int (ofBool b) := by
  cases hd : ta.isF64 || tc.isF64 with
  | true =>
      refine ((convert_f64 ta).bind₂ (convert_f64 tc) (maps_fcmp isEq)).congr ?_ ?_
      · intro x y hx hy
        unfold cmp
        rw [isDouble_eq hx, isDouble_eq hy, hd, if_pos rfl]
      · intro v w _ _
        unfold eqVal
        rw [hd]
        rfl
  | false =>
      refine ((convert_i64 ta).bind₂ (convert_i64 tc) (maps_icmp isEq)).congr ?_ ?_
      · intro x y hx hy
        unfold cmp
        rw [isDouble_eq hx, isDouble_eq hy, hd]
        simp only [cmpInt_eqOp]
        rfl
      · intro v w _ _
        unfold eqVal
        rw [hd]
        cases asInt v <;> cases asInt w <;> rfl

/-! ## Unary operators -/

/-- The prefix operators on values. -/
def isUnary : P → Bool
  | .minus | .plus | .tilde | .not => true
  | _ => false

/-- The type of a prefix operator's result. -/
def unaryTy (p : P) (t : Ty) : Ty :=
  match p with
  | .minus => if t.isF64 then .f64 else if t.isInt then t else .i64
  | .plus => t
  | _ => .i64

/-- A prefix operator on a value of type `t`. -/
def unaryVal (p : P) (t : Ty) (v : Val) : Option Val :=
  match p with
  | .minus => if t.isF64 then some (.fp (-asFp t v)) else (asInt v).map fun i => .int (-i)
  | .plus => some v
  | .tilde => (asInt v).map fun i => .int (~~~i)
  | _ => some (.int (ofBool (!truth v)))

theorem unaryTy_isPtr {p : P} {t : Ty} (h : t.isPtr = false) : (unaryTy p t).isPtr = false := by
  unfold unaryTy
  split
  · split_ifs
    · rfl
    · exact h
    · rfl
  · exact h
  · rfl

theorem unaryTy_isF64 {p : P} {t : Ty} (h : t.isF64 = false) : (unaryTy p t).isF64 = false := by
  unfold unaryTy
  split
  · rw [h, if_neg Bool.false_ne_true]
    split_ifs
    · exact h
    · rfl
  · exact h
  · rfl

theorem maps_fneg : Maps (fun x => Gen.create (.fneg x)) id .double .double fun v =>
    v.fp?.bind fun q => some (.fp (-q)) := by
  refine maps_fp ?_ (fun _ => rfl) ?_
  · intro q w hw
    rcases Option.some.inj hw with rfl
    rfl
  · intro W ρ m x q hq
    simp [Op.eval, hq]

theorem maps_neg : Maps (fun x => Gen.create (.bin .sub (cI64 0) x)) id (.int 64) (.int 64)
    fun v => v.int?.bind fun i => some (.int (-i)) := by
  refine maps_int_int (fun _ _ => rfl) ?_
  intro W ρ m x i _ hi
  simp [Op.eval, hi, cI64, BinOp.eval]

theorem maps_not : Maps (fun x => Gen.create (.bin .xor x (cI64 (-1)))) id (.int 64) (.int 64)
    fun v => v.int?.bind fun i => some (.int (~~~i)) := by
  refine maps_int_int (fun _ hx => hx) ?_
  intro W ρ m x i _ hi
  simp only [Op.eval, hi, cI64, BinOp.eval, Value.evalInt_int, Option.bind_eq_bind,
    Option.bind_some, Option.pure_def]
  exact congrArg (fun y => some (Val.int y)) BitVec.xor_allOnes

theorem maps_lnot : Maps (fun x => Gen.create (.bin .xor x (.int 1 1))) id (.int 1) (.int 1)
    fun v => v.int?.bind fun i => some (.int (i ^^^ 1)) := by
  refine maps_int_int (fun _ hx => hx) ?_
  intro W ρ m x i _ hi
  simp [Op.eval, hi, BinOp.eval]

theorem ofBool_not (b : Bool) : ofBool b ^^^ 1 = ofBool (!b) := by cases b <;> decide

end Hlang.Codegen
