import Hlang.Ast
import Hlang.Ir.Syntax

/-!
# Hlang.Codegen.Env — what code generation looks up

The tables of `CG`, the types it derives from the syntax alone, and the static
helpers on types.
-/

namespace Hlang.Codegen

open Ir

/-- `VarSym`: the storage of a variable and its type. -/
structure VarSym where
  addr : Value
  type : Ty

/-- The fields of a `Func` type. -/
structure FuncType where
  ret : Ty
  params : List FuncParam
  variadic : Bool

/-- `FuncSym`; there is no `fn` in a call through a pointer. -/
structure FuncSym where
  fn : Option Value
  type : FuncType

/-- What `CG` looks names up in. The scopes are innermost first; `classFuel`
bounds the recursions over the class graph. -/
structure Env where
  scopes : List (List (String × VarSym)) := []
  globals : List (String × VarSym) := []
  funcs : List (String × FuncSym) := []
  classes : String → Option ClassId := fun _ => none
  heap : Heap := fun _ => {}
  classFuel : Nat := 0

namespace Env

/-- `lookupVar`. -/
def lookupVar (Γ : Env) (n : String) : Option VarSym :=
  match Γ.scopes.findSome? (·.lookup n) with
  | some v => some v
  | none => Γ.globals.lookup n

/-- `funcs_.find`. -/
def findFunc (Γ : Env) (n : String) : Option FuncSym := Γ.funcs.lookup n

/-- `findMember` on an object of the program. -/
def findMember (Γ : Env) (c : ClassId) (n : String) : Option (Option ClassMember) :=
  Hlang.findMember Γ.heap Γ.classFuel c n

/-- `Type::size`. -/
def size (Γ : Env) (t : Ty) : I64 := t.size Γ.heap

/-- `Type::str`. -/
def str (Γ : Env) : Ty → String
  | .void => "U0"
  | .int n uns => (if uns then "U" else "I") ++ toString (n * 8)
  | .f64 => "F64"
  | .ptr elem => Γ.str elem ++ "*"
  | .array elem n => Γ.str elem ++ "[" ++ toString n.toInt ++ "]"
  | .cls c => (Γ.heap c).name
  | .func _ _ _ => "<fun>"

/-- `classNameOf`. -/
def classNameOf (Γ : Env) : Ty → String
  | .ptr elem => Γ.classNameOf elem
  | .cls c => (Γ.heap c).name
  | t => Γ.str t

/-- `memTy`: the type of a variable in memory. -/
def memTy (Γ : Env) (t : Ty) : LTy :=
  match t with
  | .f64 => .double
  | .int n _ => .int (if n = 0 then 8 else n * 8)
  | .ptr _ | .func _ _ _ => .int 64
  | .void => .int 8
  | .array _ _ | .cls _ => .bytes (if (Γ.size t).slt 1 then 1 else Γ.size t)

end Env

/-! ## Types -/

/-- `isAggregate`. -/
def isAggregate : Ty → Bool
  | .array _ _ | .cls _ => true
  | _ => false

/-- `isU64`. -/
def isU64 : Ty → Bool
  | .int 8 true => true
  | .ptr _ => true
  | _ => false

/-- `kind == Func` -/
def isFunc : Ty → Bool
  | .func _ _ _ => true
  | _ => false

/-- `subIntType`: the type of a sub-int member. -/
def subIntType : String → Option Ty
  | "i8" => some (.int 1 false)
  | "u8" => some (.int 1 true)
  | "i16" => some (.int 2 false)
  | "u16" => some (.int 2 true)
  | "i32" => some (.int 4 false)
  | "u32" => some (.int 4 true)
  | "i64" => some (.int 8 false)
  | "u64" => some (.int 8 true)
  | _ => none

/-- `regSlotType`: a 32-bit local lives in a 64-bit slot. -/
def regSlotType : Ty → Ty
  | .int 4 uns => .int 8 uns
  | t => t

/-- The member type `typeOf` gives to a class or another type. -/
def Env.memberType (Γ : Env) (bt : Ty) (s : String) : Option Ty :=
  let other := (subIntType s).getD .i64
  match bt with
  | .cls c => (Γ.findMember c s).map fun m => (m.map (·.type)).getD other
  | _ => some other

/-- `typeOf`; `none` when the member lookup it needs does not return. -/
def Env.typeOf (Γ : Env) : Expr → Option Ty
  | .intLit _ _ | .charLit _ _ | .sizeofType _ _ | .sizeofExpr _ _ | .offsetOf _ _ _ _ => some .i64
  | .floatLit _ _ => some .f64
  | .strLit _ _ => some (.ptr .u8)
  | .cast _ _ t => some t
  | .ident _ s =>
      match Γ.lookupVar s with
      | some v => some v.type
      | none =>
          match Γ.findFunc s with
          | some f => some f.type.ret
          | none => some .i64
  | .unary _ p _ k =>
      match p with
      | .amp => (Γ.typeOf k).map .ptr
      | .star => (Γ.typeOf k).map fun t =>
          match t with
          | .ptr elem => elem
          | _ => .u8
      | .not => some .i64
      | _ => Γ.typeOf k
  | .binary _ _ a c => do
      let a ← Γ.typeOf a
      let c ← Γ.typeOf c
      if a.isF64 || c.isF64 then return .f64
      if a.isPtr then return a
      if c.isPtr then return c
      return .i64
  | .assign _ _ a _ => Γ.typeOf a
  | .index _ b _ => (Γ.typeOf b).map fun t =>
      match t with
      | .ptr elem => elem
      | .array elem _ => elem
      | _ => .u8
  | .member _ b s isArrow => do
      let bt ← Γ.typeOf b
      match bt with
      | .ptr elem => if isArrow then Γ.memberType elem s else Γ.memberType bt s
      | bt => Γ.memberType bt s
  | .call _ callee _ => do
      let known : Option Ty :=
        match callee with
        | .ident _ s =>
            match Γ.findFunc s with
            | some f => some f.type.ret
            | none => if s = "ToF64" then some .f64 else none
        | _ => none
      match known with
      | some t => return t
      | none =>
          match ← Γ.typeOf callee with
          | .func ret _ _ => return ret
          | .ptr (.func ret _ _) => return ret
          | _ => return .i64
  | .chainCmp _ _ _ | .lastClass _ | .initList _ _ => some .i64

end Hlang.Codegen
