import Hlang.Codegen.Expr

/-!
# Hlang.Codegen.Init — initialisers

An initialiser is folded to a constant where it can be (`tryConstInit`), and
otherwise executed (`genInit`). Both walk over a brace list along the places of the
items: the elements of an array, or the members of a class.
-/

namespace Hlang.Codegen

open Ir Gen

/-- The type and the offset of each item of a list of `n` items for storage of type
`t`: no list where `t` is not an aggregate. -/
def Env.initPlaces (Γ : Env) (t : Ty) (n : Nat) : Fold (List (Ty × I64)) :=
  match t with
  | .array elem arrayLen =>
      .ok ((List.range (min n arrayLen.toInt.toNat)).map fun i =>
        (elem, BitVec.ofNat 64 i * Γ.size elem))
  | .cls c =>
      match collect Γ.heap Γ.classFuel c with
      | some flat => .ok (flat.map fun m => (m.type, m.offset))
      | none => .error .undefined
  | _ => .error .notConst

/-! ## Constants -/

/-- A byte of a constant: its value, or byte `k` of a double. -/
inductive ConstByte where
  | lit (b : BitVec 8)
  | ofF64 (q : ℚ) (k : Nat)
deriving DecidableEq

/-- `Constant*`. -/
inductive Const where
  /-- `getNullValue` -/
  | null (ty : LTy)
  | fp (q : ℚ)
  | int (bits : Nat) (v : I64)
  /-- the address of a string constant, as an integer -/
  | strAddr (ty : LTy) (s : String)
  | bytes (bs : List ConstByte)

/-- The bytes of a string. -/
def strBytes (s : String) : List (BitVec 8) := s.toList.map fun c => BitVec.ofNat 8 c.toNat

/-- `memcpy(&out[off], .., n)`; outside of `out` it has no defined result. -/
def copyBytes (out : List ConstByte) (off : I64) (bs : List ConstByte) : Fold (List ConstByte) :=
  if off.toNat + bs.length ≤ out.length then
    .ok (out.take off.toNat ++ bs ++ out.drop (off.toNat + bs.length))
  else .error .undefined

/-- `constBytes` for what is not a list. -/
def Env.constScalar (Γ : Env) (e : Expr) (t : Ty) (out : List ConstByte) (off : I64) :
    Fold (List ConstByte) :=
  if t.isF64 then do
    let d ← Γ.evalConstF64 e
    copyBytes out off ((List.range 8).map (.ofF64 d))
  else do
    let v ← Γ.evalConst e
    let n := if (Γ.size t).slt 8 then (Γ.size t).toNat else 8
    copyBytes out off ((List.range n).map fun k => .lit (byteOf v k))

/-- `constBytes` for the items of a list, at their places. -/
def Env.constItems (Γ : Env) : List Expr → List (Ty × I64) → List ConstByte → I64 →
    Fold (List ConstByte)
  | [], _, out, _ => .ok out
  | _ :: _, [], _, _ => .error .notConst
  | .initList _ kids :: es, (t, o) :: places, out, off => do
      let inner ← Γ.initPlaces t kids.length
      if inner.length < kids.length then .error .notConst
      else
        let out ← Γ.constItems kids inner out (off + o)
        Γ.constItems es places out off
  | e :: es, (t, o) :: places, out, off => do
      let out ← Γ.constScalar e t out (off + o)
      Γ.constItems es places out off

/-- `constBytes` of a list. -/
def Env.constBytes (Γ : Env) (kids : List Expr) (t : Ty) (out : List ConstByte) (off : I64) :
    Fold (List ConstByte) := do
  let places ← Γ.initPlaces t kids.length
  if places.length < kids.length then .error .notConst
  else Γ.constItems kids places out off

/-- An array of bytes. -/
def isByteArray : Ty → Bool
  | .array (.int 1 _) _ => true
  | _ => false

/-- `tryConstInit`. -/
def Env.tryConstInit (Γ : Env) (e : Expr) (t : Ty) : Fold Const :=
  match e, t with
  | e, .f64 => do return .fp (← Γ.evalConstF64 e)
  | .strLit _ s, .int _ _ | .strLit _ s, .ptr _ | .strLit _ s, .func _ _ _ =>
      .ok (.strAddr (Γ.memTy t) s)
  | e, .int n _ => do return .int (if n = 0 then 8 else n * 8) (← Γ.evalConst e)
  | e, .ptr _ | e, .func _ _ _ => do return .int 64 (← Γ.evalConst e)
  | .strLit _ s, .array (.int 1 _) _ =>
      .ok (.bytes ((strBytes s ++ List.replicate (Γ.size t).toNat 0).take (Γ.size t).toNat
        |>.map .lit))
  | .initList _ kids, .array _ _ | .initList _ kids, .cls _ => do
      return .bytes (← Γ.constBytes kids t (List.replicate (Γ.size t).toNat (.lit 0)) 0)
  | _, _ => .error .notConst

/-! ## Executed initialisers -/

section Init

variable (Γ : Env) (R : Rec)

/-- `genInit` for what is not a list. -/
def genInitValue (addr : Value) (t : Ty) (init : Expr) : Gen Unit :=
  match init with
  | .strLit n s =>
      if isByteArray t then
        emit (.memcpy addr (.str s)
          (BitVec.ofNat 64 (min (s.length + 1) (Γ.size t).toNat)))
      else genValue (.strLit n s)
  | init => genValue init
where
  /-- the copy of an aggregate, or the store of a scalar -/
  genValue (init : Expr) : Gen Unit := do
    let rv ← R.genExpr [] init
    if isAggregate t then
      let src ← asPtr rv.v
      emit (.memcpy addr src (Γ.size t))
    else storeTo Γ addr rv t

/-- The loops of `genInitList`. -/
def genInitItems (loc : SrcLoc) (addr : Value) : List Expr → List (Ty × I64) → Gen Unit
  | [], _ => pure ()
  | _ :: _, [] => error loc "too many initializers"
  | .initList n kids :: es, (t, off) :: places => do
      let ea ← create (.gep addr (cI64 off))
      if isAggregate t then
        let inner ← ofOption (Γ.initPlaces t kids.length).toOption
        genInitItems n.loc ea kids inner
      else error n.loc "initializer list for non-aggregate"
      genInitItems loc addr es places
  | e :: es, (t, off) :: places => do
      let ea ← create (.gep addr (cI64 off))
      genInitValue Γ R ea t e
      genInitItems loc addr es places

/-- `genInitList`. -/
def genInitList (addr : Value) (t : Ty) (n : Node) (kids : List Expr) : Gen Unit := do
  if isAggregate t then
    let places ← ofOption (Γ.initPlaces t kids.length).toOption
    genInitItems Γ R n.loc addr kids places
  else error n.loc "initializer list for non-aggregate"

/-- `genInit`. -/
def genInit (addr : Value) (t : Ty) : Expr → Gen Unit
  | .initList n kids => do
      emit (.memset addr 0 (Γ.size t))
      genInitList Γ R addr t n kids
  | init => genInitValue Γ R addr t init

end Init

end Hlang.Codegen
