import Hlang.Ast
import Hlang.Lib.Lts
import Mathlib.Logic.Function.Basic

/-!
# Hlang.Parser.ClassDef — class and union declarations

`Parser::Impl::parseClassDef` on a declaration whose tokens have been read: the
class is entered under its name, its base clause and whole type are set, the
members are laid out one after the other, and the class is completed. Any
diagnostic ends the step with its message.
-/

namespace Hlang.Parser

/-- The builtin type names. -/
def builtinTypes : List (String × Ty) :=
  [("U0", .void), ("I0", .void),
   ("I8", .int 1 false), ("U8", .int 1 true), ("I16", .int 2 false), ("U16", .int 2 true),
   ("I32", .int 4 false), ("U32", .int 4 true), ("I64", .int 8 false), ("U64", .int 8 true),
   ("F64", .f64),
   ("I8i", .int 1 false), ("U8i", .int 1 true), ("I16i", .int 2 false), ("U16i", .int 2 true),
   ("I32i", .int 4 false), ("U32i", .int 4 true), ("I64i", .int 8 false), ("U64i", .int 8 true)]

/-- The class table of `Program`: the map `classes`, the objects, and the next
unused address. -/
structure Program where
  classes : String → Option ClassId := fun _ => none
  heap : Heap := fun _ => {}
  next : ClassId := 0

/-! ## The syntax of a declaration -/

/-- What `parseDeclarator` reads in a class body. -/
inductive Declarator where
  /-- `*` stars, the name, and the dimensions (`none` where the expression is
  not constant) -/
  | plain (stars : Nat) (name : String) (dims : List (Option I64))
  /-- a function pointer `(*name)(params)` -/
  | fnPtr (stars : Nat) (name : String) (params : List FuncParam) (variadic : Bool)

/-- One line of a class body: a type name and its declarators. -/
structure MemberLine where
  typeName : String
  declarators : List Declarator

/-- `[WHOLETYPE] (class|union) NAME [:BASE] [{...}] ';'`. -/
structure ClassDecl where
  wholeType : Option String := none
  isUnion : Bool := false
  name : String
  base : Option String := none
  body : Option (List MemberLine) := none

/-! ## Types of declarations -/

/-- `baseTypeFor`. -/
def Program.baseTypeFor (s : Program) (name : String) : Option Ty :=
  match builtinTypes.lookup name with
  | some t => some t
  | none => (s.classes name).map .cls

/-- The type a base type name stands for, or a diagnostic. -/
def Program.typeNamed (s : Program) (name : String) : Except String Ty :=
  match s.baseTypeFor name with
  | some t => .ok t
  | none => .error s!"unknown type '{name}'"

/-- `tyPtr`, once for each star. -/
def stars : Nat → Ty → Ty
  | 0, t => t
  | k + 1, t => stars k (.ptr t)

/-- The dimensions must be constant and not negative. -/
def constDims : List (Option I64) → Except String (List I64)
  | [] => .ok []
  | none :: _ => .error "array dimension must be a constant expression"
  | some n :: dims =>
      if n.slt 0 then .error "array dimension must be a constant expression"
      else do
        let rest ← constDims dims
        return n :: rest

/-- The name and the type of a declarator over the base type `base`. -/
def Declarator.declare (base : Ty) : Declarator → Except String (String × Ty)
  | .plain k name dims => do
      let ns ← constDims dims
      -- the last dimension is the innermost one
      return (name, ns.foldr (fun n ty => .array ty n) (stars k base))
  | .fnPtr k name params variadic => .ok (name, .ptr (.func (stars k base) params variadic))

/-! ## The layout loop -/

/-- What the layout loop carries. -/
structure Layout where
  members : List ClassMember := []
  offset : I64
  maxSize : I64

/-- Members of these names may repeat. -/
def mayRepeat (n : String) : Bool := n = "pad" || n = "reserved"

/-- One turn of the layout loop. -/
def layoutMember (H : Heap) (cname : String) (isUnion : Bool) (L : Layout) (m : String × Ty) :
    Except String Layout :=
  let sz := m.2.size H
  if !mayRepeat m.1 && L.members.any (·.name = m.1) then
    .error (s!"duplicate member '{m.1}' in class '{cname}' " ++
      "(only 'pad'/'reserved' may repeat)")
  else if isUnion then
    .ok { members := L.members ++ [⟨m.1, m.2, 0⟩], offset := L.offset,
          maxSize := if L.maxSize.slt sz then sz else L.maxSize }
  else
    let offset := L.offset + sz
    .ok { members := L.members ++ [⟨m.1, m.2, L.offset⟩], offset := offset,
          maxSize := if L.maxSize.slt offset then offset else L.maxSize }

/-- The declarators of one line, over the type `base`. -/
def layoutLine (H : Heap) (cname : String) (isUnion : Bool) (base : Ty) (L : Layout)
    (ds : List Declarator) : Except String Layout :=
  ds.foldlM (fun L d => do layoutMember H cname isUnion L (← d.declare base)) L

/-- The layout loop over the lines of the body. -/
def Program.layoutLoop (s : Program) (cname : String) (isUnion : Bool) (L : Layout)
    (ls : List MemberLine) : Except String Layout :=
  ls.foldlM (fun L l =>
    match s.baseTypeFor l.typeName with
    | some base => layoutLine s.heap cname isUnion base L l.declarators
    | none => .error s!"expected member type (got '{l.typeName}')") L

/-! ## The declaration -/

/-- Put the object `c` at an address. -/
def Program.setClass (s : Program) (id : ClassId) (c : ClassInfo) : Program :=
  { s with heap := Function.update s.heap id c }

/-- A new class object under `name`. -/
def Program.fresh (s : Program) (name : String) : ClassId × Program :=
  (s.next, { classes := Function.update s.classes name (some s.next),
             heap := Function.update s.heap s.next { name := name },
             next := s.next + 1 })

/-- The object a declaration is about: the one entered under its name, or a new
one when there is none or when a complete class is declared once more with a
base clause or a body. -/
def Program.enter (s : Program) (d : ClassDecl) : ClassId × Program :=
  match s.classes d.name with
  | some ci =>
      if (s.heap ci).complete && (d.base.isSome || d.body.isSome) then s.fresh d.name else (ci, s)
  | none => s.fresh d.name

/-- The whole type of the prefix, looked up before the class is entered. -/
def Program.wholeOf (s : Program) (d : ClassDecl) : Except String (Option Ty) :=
  match d.wholeType with
  | none => .ok none
  | some w => some <$> s.typeNamed w

/-- The base the object has after the base clause. -/
def Program.baseOf (s : Program) (ci : ClassId) (d : ClassDecl) : Except String (Option Ty) :=
  match d.base with
  | none => .ok (s.heap ci).base
  | some b =>
      if (s.classes b).isSome then .ok (s.baseTypeFor b) else .error "expected base class name"

/-- The size of the base class, where the own members start. -/
def baseSize (H : Heap) (base : Option Ty) : I64 :=
  match base.bind Ty.cls? with
  | some b => (H b).size
  | none => 0

/-- The object with the keyword and the whole type of the declaration. -/
def Program.opened (s : Program) (ci : ClassId) (wholeType : Option Ty) (d : ClassDecl) :
    Program :=
  s.setClass ci { s.heap ci with isUnion := d.isUnion, wholeType := wholeType }

/-- The object with its base. -/
def Program.based (s : Program) (ci : ClassId) (base : Option Ty) : Program :=
  s.setClass ci { s.heap ci with base := base }

/-- The object with the members and the size of its layout. -/
def Program.completed (s : Program) (ci : ClassId) (L : Layout) : Program :=
  s.setClass ci { s.heap ci with members := L.members, size := L.maxSize, complete := true }

/-- The layout of a body: it starts at the size of the base. -/
def Program.layout (s : Program) (ci : ClassId) (isUnion : Bool) (body : List MemberLine) :
    Except String Layout :=
  let offset := baseSize s.heap (s.heap ci).base
  s.layoutLoop (s.heap ci).name isUnion
    { members := (s.heap ci).members, offset := offset, maxSize := offset } body

/-- `parseClassDef`, once the object `ci` is entered. -/
def Program.define (s : Program) (ci : ClassId) (wholeType : Option Ty) (d : ClassDecl) :
    Except String Program := do
  let s := s.opened ci wholeType d
  let base ← s.baseOf ci d
  let s := s.based ci base
  match d.body with
  | none => return s
  | some body => return s.completed ci (← s.layout ci d.isUnion body)

/-- `parseClassDef`. -/
def parseClassDef (s : Program) (d : ClassDecl) : Except String Program := do
  let wholeType ← s.wholeOf d
  (s.enter d).2.define (s.enter d).1 wholeType d

/-- The runs of declarations that are accepted without a diagnostic. -/
def declarations : Lts Program ClassDecl :=
  Lts.ofStep {} fun s d => (parseClassDef s d).toOption

end Hlang.Parser
