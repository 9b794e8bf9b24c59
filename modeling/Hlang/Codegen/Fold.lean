import Hlang.Codegen.Env
import Hlang.Ir.Semantics

/-!
# Hlang.Codegen.Fold — the compile-time evaluators

`CG::evalConst` and `CG::evalConstF64`, which fold case labels and static
initialisers, and `Parser::Impl::evalConstI64`, which folds array dimensions.
An evaluator answers with a value, with "not constant", or, where the C++ it is
written in has no defined result, with `undefined`.
-/

namespace Hlang.Codegen

open Ir

/-- Why an evaluator has no value. -/
inductive FoldErr where
  /-- it returns `false` -/
  | notConst
  /-- a signed division overflow, or a `double` out of the range of `int64_t` -/
  | undefined
deriving DecidableEq

abbrev Fold := Except FoldErr

/-- `(int64_t)d`. -/
def foldTrunc (d : ℚ) : Fold I64 :=
  match toI64? d with
  | some v => .ok v
  | none => .error .undefined

/-- The loop `while (c-- > 0) r *= a`, over the turns it makes. -/
def powLoop : Nat → I64 → I64 → I64
  | 0, r, _ => r
  | n + 1, r, a => powLoop n (r * a) a

/-- The power operator of both evaluators. -/
def foldPow (a c : I64) : I64 := powLoop c.toInt.toNat 1 a

/-- A signed `/` or `%` of both evaluators. -/
def foldDiv (op : I64 → I64 → I64) (a c : I64) : Fold I64 :=
  if c = 0 then .error .notConst
  else if a = BitVec.intMin 64 ∧ c = -1 then .error .undefined
  else .ok (op a c)

/-- The unary operators of both evaluators. -/
def foldUnary (p : P) (v : I64) : Fold I64 :=
  match p with
  | .minus => .ok (-v)
  | .plus => .ok v
  | .tilde => .ok (~~~v)
  | .not => .ok (ofBool (v = 0))
  | _ => .error .notConst

/-- The binary operators that both evaluators know. -/
def foldArith (p : P) (a c : I64) : Fold I64 :=
  match p with
  | .plus => .ok (a + c)
  | .minus => .ok (a - c)
  | .star => .ok (a * c)
  | .slash => foldDiv BitVec.sdiv a c
  | .percent => foldDiv BitVec.srem a c
  | .shl => .ok (a <<< (c &&& 63).toNat)
  | .shr => .ok (a.sshiftRight (c &&& 63).toNat)
  | .amp => .ok (a &&& c)
  | .pipe => .ok (a ||| c)
  | .caret => .ok (a ^^^ c)
  | .pow => .ok (foldPow a c)
  | _ => .error .notConst

/-- The binary operators of `evalConst`. -/
def foldBinary (p : P) (a c : I64) : Fold I64 :=
  match p with
  | .andAnd => .ok (ofBool (a ≠ 0 ∧ c ≠ 0))
  | .orOr => .ok (ofBool (a ≠ 0 ∨ c ≠ 0))
  | .xorXor => .ok (ofBool (a ≠ 0) ^^^ ofBool (c ≠ 0))
  | .eqEq => .ok (ofBool (a = c))
  | .ne => .ok (ofBool (a ≠ c))
  | .lt => .ok (ofBool (a.slt c))
  | .gt => .ok (ofBool (c.slt a))
  | .le => .ok (ofBool (a.sle c))
  | .ge => .ok (ofBool (c.sle a))
  | p => foldArith p a c

/-- The cast of `evalConst`: an integer type below 64 bits masks and extends. -/
def foldCast (t : Ty) (v : I64) : I64 :=
  match t with
  | .int n uns =>
      if 0 < n ∧ n < 8 then
        let bits := n * 8
        let mask : I64 := (BitVec.allOnes 64) >>> (64 - bits)
        let v := v &&& mask
        if !uns && v >>> (bits - 1) ≠ 0 then v ||| ~~~mask else v
      else v
  | _ => v

/-- The class of an `offset` expression: pinned by the parser, or looked up. -/
def Env.offsetClass (Γ : Env) (className : String) (classRef : Option ClassId) : Option ClassId :=
  match classRef with
  | some c => some c
  | none => Γ.classes className

/-- `offset(className.memberName)`; a lookup that does not return gives no value
at all. -/
def Env.offsetOf (Γ : Env) (className memberName : String) (classRef : Option ClassId) :
    Fold I64 :=
  match Γ.offsetClass className classRef with
  | none => .error .notConst
  | some c =>
      match Γ.findMember c memberName with
      | some (some m) => .ok m.offset
      | some none => .error .notConst
      | none => .error .undefined

/-- `CG::evalConst`. -/
def Env.evalConst (Γ : Env) : Expr → Fold I64
  | .intLit _ v | .charLit _ v => .ok v
  | .floatLit _ d => foldTrunc d
  | .sizeofType _ t => .ok (Γ.size t)
  | .offsetOf _ c m r => Γ.offsetOf c m r
  | .cast _ k t => do return foldCast t (← Γ.evalConst k)
  | .unary _ p pre k =>
      if pre then do foldUnary p (← Γ.evalConst k) else .error .notConst
  | .binary _ p a c => do
      let a ← Γ.evalConst a
      let c ← Γ.evalConst c
      foldBinary p a c
  | _ => .error .notConst

/-- `CG::evalConstF64`. -/
def Env.evalConstF64 (Γ : Env) : Expr → Fold ℚ
  | .floatLit _ d => .ok d
  | .unary n p pre k =>
      if p = .minus then do return -(← Γ.evalConstF64 k)
      else do return (← Γ.evalConst (.unary n p pre k)).toInt
  | e => do return (← Γ.evalConst e).toInt

/-- `Parser::Impl::evalConstI64`, with the class objects the parser has. An
operand that is not constant only clears `ok`, and a division by zero after it
is not made. -/
def evalConstI64 (H : Heap) : Expr → Fold I64
  | .intLit _ v | .charLit _ v => .ok v
  | .floatLit _ d => foldTrunc d
  | .sizeofType _ t => .ok (t.size H)
  | .unary _ p _ k => do foldUnary p (← evalConstI64 H k)
  | .binary _ p a c => do
      let a ← evalConstI64 H a
      let c ← evalConstI64 H c
      foldArith p a c
  | _ => .error .notConst

end Hlang.Codegen
