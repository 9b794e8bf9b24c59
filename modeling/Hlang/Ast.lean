import Hlang.Token

/-!
# Hlang.Ast — types, classes and expressions

The data the parser builds. A class object is shared and keeps changing while
its declaration is parsed, so a type names it by its address (`ClassId`) and
what stands at the address is in a `Heap`.
-/

namespace Hlang

/-- The address of a `ClassInfo` object. -/
abbrev ClassId := Nat

/-- What every expression node has: its position, and the address that makes
it one occurrence. -/
structure Node where
  loc : SrcLoc := {}
  addr : Nat := 0
deriving DecidableEq

mutual

/-- `Type`. -/
inductive Ty where
  /-- `U0` and `I0` -/
  | void
  | int (intSize : Nat) (isUnsigned : Bool)
  | f64
  | ptr (elem : Ty)
  | array (elem : Ty) (arrayLen : I64)
  | cls (cls : ClassId)
  | func (ret : Ty) (params : List FuncParam) (variadic : Bool)

/-- `FuncParam`. -/
inductive FuncParam where
  | mk (name : String) (type : Ty) (dflt : Option Expr) (dfltIsLastClass : Bool)

/-- `Expr`, one constructor for each `Ex` kind with the fields that kind uses. -/
inductive Expr where
  | intLit (n : Node) (intVal : I64)
  | floatLit (n : Node) (fltVal : ℚ)
  | strLit (n : Node) (strVal : String)
  | charLit (n : Node) (intVal : I64)
  | ident (n : Node) (strVal : String)
  /-- `pre` is the flag `prefix` -/
  | unary (n : Node) (punct : P) (pre : Bool) (kid : Expr)
  | binary (n : Node) (punct : P) (lhs rhs : Expr)
  /-- the operands, each later one with the operator before it -/
  | chainCmp (n : Node) (first : Expr) (rest : List (P × Expr))
  | assign (n : Node) (punct : P) (lhs rhs : Expr)
  /-- an argument slot that was skipped is `none` -/
  | call (n : Node) (callee : Expr) (args : List (Option Expr))
  | index (n : Node) (base idx : Expr)
  | member (n : Node) (base : Expr) (strVal : String) (isArrow : Bool)
  | cast (n : Node) (kid : Expr) (castType : Ty)
  | sizeofType (n : Node) (castType : Ty)
  | sizeofExpr (n : Node) (kid : Expr)
  | offsetOf (n : Node) (className memberName : String) (classRef : Option ClassId)
  | lastClass (n : Node)
  | initList (n : Node) (kids : List Expr)

end

/-- The node of an expression. -/
def Expr.node : Expr → Node
  | .intLit n _ | .floatLit n _ | .strLit n _ | .charLit n _ | .ident n _ | .unary n _ _ _
  | .binary n _ _ _ | .chainCmp n _ _ | .assign n _ _ _ | .call n _ _ | .index n _ _
  | .member n _ _ _ | .cast n _ _ | .sizeofType n _ | .sizeofExpr n _ | .offsetOf n _ _ _
  | .lastClass n | .initList n _ => n

namespace FuncParam

/-- `FuncParam::name`. -/
def name : FuncParam → String
  | .mk name _ _ _ => name

/-- `FuncParam::type`. -/
def type : FuncParam → Ty
  | .mk _ type _ _ => type

/-- `FuncParam::dflt`. -/
def dflt : FuncParam → Option Expr
  | .mk _ _ dflt _ => dflt

/-- `FuncParam::dfltIsLastClass`. -/
def dfltIsLastClass : FuncParam → Bool
  | .mk _ _ _ last => last

end FuncParam

/-- `ClassMember`. -/
structure ClassMember where
  name : String
  type : Ty
  offset : I64 := 0

/-- `ClassInfo`. -/
structure ClassInfo where
  name : String := ""
  isUnion : Bool := false
  base : Option Ty := none
  wholeType : Option Ty := none
  members : List ClassMember := []
  size : I64 := 0
  complete : Bool := false

/-- The class objects, by address. -/
abbrev Heap := ClassId → ClassInfo

namespace Ty

def i64 : Ty := .int 8 false
def u64 : Ty := .int 8 true
def u8 : Ty := .int 1 true

/-- `Type::isF64`. -/
def isF64 : Ty → Bool
  | .f64 => true
  | _ => false

/-- `Type::isInt`. -/
def isInt : Ty → Bool
  | .int _ _ => true
  | _ => false

/-- `Type::isPtr`. -/
def isPtr : Ty → Bool
  | .ptr _ => true
  | _ => false

/-- `Type::cls` of a class type. -/
def cls? : Ty → Option ClassId
  | .cls c => some c
  | _ => none

/-- `Type::size`. -/
def size (H : Heap) : Ty → I64
  | .void => 0
  | .int intSize _ => BitVec.ofNat 64 intSize
  | .f64 => 8
  | .ptr _ => 8
  | .func _ _ _ => 8
  | .array elem arrayLen => elem.size H * arrayLen
  | .cls c => (H c).size

end Ty

/-! ## The recursions over the class graph

Each follows pointers of class objects, so it runs with fuel: `none` says that
the fuel did not suffice. -/

/-- `ClassInfo::findMember`: an own member first, else one of the base. -/
def findMember (H : Heap) : Nat → ClassId → String → Option (Option ClassMember)
  | 0, _, _ => none
  | fuel + 1, c, n =>
      match (H c).members.find? (·.name = n) with
      | some m => some (some m)
      | none =>
          match (H c).base.bind Ty.cls? with
          | some b => findMember H fuel b n
          | none => some none

/-- `collect` of `genInitList` and `constBytes`: the members, those of the base
first. -/
def collect (H : Heap) : Nat → ClassId → Option (List ClassMember)
  | 0, _ => none
  | fuel + 1, c =>
      match (H c).base.bind Ty.cls? with
      | some b => (collect H fuel b).map (· ++ (H c).members)
      | none => some (H c).members

/-- The type at which `storeTo` and `loadFrom` access storage of type `t`: a
class with a whole type is accessed at that type. -/
def accessType (H : Heap) : Nat → Ty → Option Ty
  | 0, _ => none
  | fuel + 1, t =>
      match t.cls?.bind fun c => (H c).wholeType with
      | some w => accessType H fuel w
      | none => some t

end Hlang
