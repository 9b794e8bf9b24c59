import Hlang.Parser.Statement

/-!
# Hlang.Parser.TopLevel — the items of a file

`Parser::Impl::run` and what it calls above the statements: qualifiers, classes
token by token, global variables, functions, and the loop over the items. The
classes declared so far change from item to item, and within a class.
-/

namespace Hlang.Parser

open Lexer (eofToken)

/-! ## Items -/

/-- `Linkage`. -/
inductive Linkage where
  | normal | publicL | externL | importL | externAlias | importAlias | staticL
deriving DecidableEq

/-- `Quals`. -/
structure Quals where
  linkage : Linkage := .normal
  aliasSym : String := ""
  interrupt : Bool := false
  hasErrCode : Bool := false
  argPop : Bool := false
  noArgPop : Bool := false
  any : Bool := false

/-- `FuncDecl`; a prototype has no body. -/
structure FuncDecl where
  name : String
  quals : Quals
  ret : Ty
  params : List FuncParam
  variadic : Bool
  body : Option (List Stmt)
  loc : SrcLoc

/-- `GlobalVar`. -/
structure GlobalVar where
  decl : VarDeclarator
  linkage : Linkage
  aliasSym : String

/-- `TopItem`. -/
inductive TopItem where
  | func (fd : FuncDecl)
  | global (g : GlobalVar)
  | stmt (s : Stmt)
  | classDef (ci : ClassId)

/-- `Parser::Impl::prog`: the classes and the items. -/
structure Decls where
  prog : Program := {}
  items : List TopItem := []

/-- The parser of items. -/
abbrev TopParse := StateT Decls Parse

/-- What expressions and statements read of the items. -/
def FileEnv.env (F : FileEnv) (d : Decls) : ParseEnv := { prog := d.prog, showFloat := F.showFloat }

/-- Parse with the classes that are declared now. -/
def FileEnv.parse {α : Type} (F : FileEnv) (f : ParseEnv → Parse α) : TopParse α := do
  f (F.env (← get))

/-- Change the classes. -/
def modifyProg (f : Program → Program) : TopParse Unit :=
  modify fun d => { d with prog := f d.prog }

/-- Append an item. -/
def addItem (item : TopItem) : TopParse Unit :=
  modify fun d => { d with items := d.items ++ [item] }

/-! ## Qualifiers -/

/-- The words of `isQualKw`. -/
def qualKws : List String :=
  ["public", "static", "extern", "import", "_extern", "_import", "interrupt", "haserrcode",
    "argpop", "noargpop"]

/-- `isQualKw`. -/
def isQualKw (t : Token) : Bool := t.kind = .ident && t.text ∈ qualKws

/-- The qualifiers with one more word, which names no symbol. -/
def Quals.add (q : Quals) (kw : String) : Quals :=
  if kw = "public" then { q with linkage := .publicL }
  else if kw = "static" then { q with linkage := .staticL }
  else if kw = "extern" then { q with linkage := .externL }
  else if kw = "import" then { q with linkage := .importL }
  else if kw = "interrupt" then { q with interrupt := true }
  else if kw = "haserrcode" then { q with hasErrCode := true }
  else if kw = "argpop" then { q with argPop := true }
  else if kw = "noargpop" then { q with noArgPop := true }
  else q

/-- The loop of `parseQuals`. -/
def qualsRest : Nat → Quals → Parse Quals
  | 0, _ => stuck
  | n + 1, q => do
      let t ← tok 0
      if !isQualKw t then return q
      else
        let _ ← take
        let q := { q with any := true }
        if t.text = "_extern" ∨ t.text = "_import" then
          let q :=
            { q with linkage := if t.text = "_extern" then .externAlias else .importAlias }
          let u ← tok 0
          if u.kind = .ident then
            let _ ← take
            qualsRest n { q with aliasSym := u.text }
          else
            error u.loc ("expected symbol name after " ++ t.text)
            qualsRest n q
        else qualsRest n (q.add t.text)

/-- `parseQuals`. -/
def parseQuals (n : Nat) : Parse Quals := qualsRest n {}

/-! ## Classes -/

/-- The object a class declaration is about: the one entered under its name, or a new one when
there is none or when a complete class is declared once more with a base clause or a body. -/
def Program.enterName (s : Program) (name : String) (defines : Bool) : ClassId × Program :=
  match s.classes name with
  | some ci => if (s.heap ci).complete && defines then s.fresh name else (ci, s)
  | none => s.fresh name

/-- What the loops over the members carry. -/
structure Offsets where
  offset : I64
  maxSize : I64

/-- The offset of a member of size `sz`, and the offsets behind it. -/
def Offsets.place (o : Offsets) (isUnion : Bool) (sz : I64) : I64 × Offsets :=
  if isUnion then (0, { o with maxSize := if o.maxSize.slt sz then sz else o.maxSize })
  else
    let offset := o.offset + sz
    (o.offset, { offset := offset, maxSize := if o.maxSize.slt offset then offset else o.maxSize })

/-- The object with one more member. -/
def Program.addMember (s : Program) (ci : ClassId) (m : ClassMember) : Program :=
  s.setClass ci { s.heap ci with members := (s.heap ci).members ++ [m] }

/-- The complete object. -/
def Program.complete (s : Program) (ci : ClassId) (size : I64) : Program :=
  s.setClass ci { s.heap ci with size := size, complete := true }

/-- The loop over the meta data of a member. -/
def memberMeta (expr : Parse Expr) : Nat → Parse Unit
  | 0 => stuck
  | n + 1 => do
      if (← tok 0).kind = .ident then
        let _ ← take
        let _ ← expr
        memberMeta expr n
      else return ()

/-- What the head of a class declaration leaves for its body. -/
structure ClassHead where
  loc : SrcLoc
  ci : ClassId
  isUnion : Bool

section Classes

variable (F : FileEnv) (n : Nat)

/-- A declared member, with its meta data read: it is laid out and entered. -/
def layMember (ci : ClassId) (isUnion : Bool) (o : Offsets) (d : VarDeclarator) :
    TopParse Offsets := do
  let p := (← get).prog
  let placed := o.place isUnion (d.type.size p.heap)
  if !mayRepeat d.name && (p.heap ci).members.any (·.name = d.name) then
    error (← tok 0).loc ("duplicate member '" ++ d.name ++ "' in class '" ++ (p.heap ci).name ++
      "' (only 'pad'/'reserved' may repeat)")
    modifyProg (·.addMember ci ⟨d.name, d.type, placed.1⟩)
    return placed.2
  else
    modifyProg (·.addMember ci ⟨d.name, d.type, placed.1⟩)
    return placed.2

/-- The loop over the declarators of one line of a class. -/
def memberLine (ci : ClassId) (isUnion : Bool) (base : Ty) : Nat → Offsets → TopParse Offsets
  | 0, _ => stuck
  | k + 1, o => do
      match ← F.parse fun E => parseDeclarator F E n base false false with
      | none =>
          error (← tok 0).loc "expected member name"
          return o
      | some d =>
          F.parse fun E => memberMeta (parseAssign E n) n
          let o ← layMember ci isUnion o d
          if ← accept .comma then memberLine ci isUnion base k o
          else
            F.parse fun E => expect E .semi "after class member"
            return o

/-- The loop over the lines of a class: `none` where the file ends before the class. -/
def classLines (loc : SrcLoc) (ci : ClassId) (isUnion : Bool) :
    Nat → Offsets → TopParse (Option Offsets)
  | 0, _ => stuck
  | k + 1, o => do
      let t ← tok 0
      if t.is .rBrace then return some o
      else if t.kind = .eof then
        error loc "unterminated class definition"
        return none
      else if ← accept .semi then classLines loc ci isUnion k o
      else if t.is .dollar then
        error t.loc "'$' offset hacks in classes are not supported by hcc"
        skipToSemi
        classLines loc ci isUnion k o
      else
        let E := F.env (← get)
        if !isTypeName E t then
          error t.loc ("expected member type (got '" ++ E.describe t ++ "')")
          skipToSemi
          classLines loc ci isUnion k o
        else
          let base ← parseBaseTypeNoStars E
          let o ← memberLine F n ci isUnion base n o
          classLines loc ci isUnion k o

/-- `addGlobalOrLocalTop`. -/
def addGlobalOrLocalTop (d : VarDeclarator) (q : Quals) : TopParse Unit :=
  addItem (.global { decl := d, linkage := q.linkage, aliasSym := q.aliasSym })

/-- The loop over the declarators behind a class. -/
def instances (q : Quals) (name : String) : Nat → TopParse Unit
  | 0 => stuck
  | k + 1 => do
      let base := ((← get).prog.baseTypeFor name).getD .void
      match ← F.parse fun E => parseDeclarator F E n base true false with
      | none => error (← tok 0).loc "expected declarator after class definition"
      | some d =>
          addGlobalOrLocalTop d q
          if ← accept .comma then instances q name k else return ()

/-- The whole type before `class` or `union`. -/
def wholeType : TopParse (Option Ty) := do
  let t ← tok 0
  if !t.isIdent "class" && !t.isIdent "union" then
    return some (← F.parse parseBaseType)
  else return none

/-- The base clause of the class object `ci`. -/
def baseClause (ci : ClassId) : TopParse Unit := do
  if ← accept .colon then
    let t ← tok 0
    let p := (← get).prog
    if t.kind ≠ .ident || (p.classes t.text).isNone then error t.loc "expected base class name"
    else
      let _ ← take
      modifyProg (·.based ci (p.baseTypeFor t.text))
      let u ← tok 0
      if u.is .comma then error u.loc "only one base class is allowed" else return ()
  else return ()

/-- The head of `parseClassDef`: `none` where there is no name. -/
def classHead : TopParse (Option ClassHead) := do
  let whole ← wholeType F
  let kw ← take
  let isUnion := kw.isIdent "union"
  let t ← tok 0
  if t.kind ≠ .ident then
    error t.loc "expected class name"
    skipToSemi
    return none
  else
    let _ ← take
    let u ← tok 0
    let e := (← get).prog.enterName t.text (u.is .lBrace || u.is .colon)
    modifyProg fun _ =>
      e.2.setClass e.1 { e.2.heap e.1 with isUnion := isUnion, wholeType := whole }
    baseClause e.1
    return some { loc := kw.loc, ci := e.1, isUnion := isUnion }

/-- The body of `parseClassDef`, and the variables behind it. -/
def classBody (q : Quals) (h : ClassHead) : TopParse Unit := do
  F.parse fun E => expect E .lBrace "in class definition"
  let p := (← get).prog
  let offset := baseSize p.heap (p.heap h.ci).base
  match ← classLines F n h.loc h.ci h.isUnion n { offset := offset, maxSize := offset } with
  | none => return ()
  | some o =>
      let _ ← take
      modifyProg (·.complete h.ci o.maxSize)
      addItem (.classDef h.ci)
      if ← is .semi 0 then F.parse fun E => expect E .semi "after class definition"
      else
        let name := ((← get).prog.heap h.ci).name
        instances F n q name n
        F.parse fun E => expect E .semi "after class definition"

/-- `parseClassDef`, from its tokens. -/
def readClassDef (q : Quals) : TopParse Unit := do
  match ← classHead F with
  | none => return ()
  | some h => if ← accept .semi then return () else classBody F n q h

end Classes

/-! ## Items -/

section Items

variable (F : FileEnv) (n : Nat)

/-- `parseFunc`. -/
def parseFunc (q : Quals) (ret : Ty) : TopParse Unit := do
  let E := F.env (← get)
  let name ← take
  let _ ← take
  let (params, variadic) ← parseParams F E n
  if ← is .lBrace 0 then
    let (_, body) ← parseBlock (parseStmt F E n) n
    addItem (.func ⟨name.text, q, ret, params, variadic, some body, name.loc⟩)
  else
    expect E .semi "after function prototype"
    addItem (.func ⟨name.text, q, ret, params, variadic, none, name.loc⟩)

/-- The loop over the declarators of a line of global variables. -/
def globals (q : Quals) (base : Ty) : Nat → Ty → TopParse Unit
  | 0, _ => stuck
  | k + 1, ty => do
      match ← F.parse fun E => parseDeclarator F E n ty true false with
      | none =>
          error (← tok 0).loc "expected declarator"
          skipToSemi
      | some d =>
          addGlobalOrLocalTop d q
          if ← accept .comma then globals q base k base
          else F.parse fun E => expect E .semi "after global variable"

/-- A function or global variables: the stars before the first name are read at once. -/
def declItem (q : Quals) : TopParse Unit := do
  let base ← F.parse parseBaseTypeNoStars
  let k := starCount (← (get : Parse PState)).toks
  skipBy (·.drop k)
  if (← tok 0).kind = .ident && (← is .lParen 1) then parseFunc F n q (stars k base)
  else globals F n q base n (stars k base)

/-- `class` or `union`. -/
def isClassKw (t : Token) : Bool := t.isIdent "class" || t.isIdent "union"

/-- `parseTopLevel`, behind its qualifiers. -/
def itemRest (q : Quals) : TopParse Unit := do
  let t ← tok 0
  let u ← tok 1
  let E := F.env (← get)
  if isClassKw t || isTypeName E t && isClassKw u then readClassDef F n q
  else if isTypeName E t && ((← startsDecl) || q.any) then declItem F n q
  else if q.any then
    error t.loc "expected declaration after qualifiers"
    skipToSemi
  else
    let s ← parseStmt F E n
    addItem (.stmt s)

/-- `parseTopLevel`. -/
def parseTopLevel : TopParse Unit := do
  if ← accept .semi then return ()
  else
    let q ← parseQuals n
    itemRest F n q

/-- `run`. -/
def run : Nat → TopParse Unit
  | 0 => stuck
  | k + 1 => do
      if (← tok 0).kind = .eof then return ()
      else
        parseTopLevel F n
        run k

end Items

end Hlang.Parser
