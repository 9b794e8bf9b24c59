import Hlang.Codegen.Func
import Hlang.Parser.TopLevel

/-!
# Hlang.Codegen.Module — the module of a file

`CG::run`. A first pass declares the functions and global variables of the file. A second one
walks over the items once more: it binds each function anew where it stands, generates the
bodies, and appends initialisers and statements to the startup function.
-/

namespace Hlang.Parser

/-- The type of a function. -/
def FuncDecl.type (fd : FuncDecl) : Codegen.FuncType := ⟨fd.ret, fd.params, fd.variadic⟩

/-- `hasBody`. -/
def FuncDecl.hasBody (fd : FuncDecl) : Bool := fd.body.isSome

/-- The symbol of a function. -/
def FuncDecl.sym (fd : FuncDecl) : String :=
  match fd.quals.linkage with
  | .externAlias | .importAlias => fd.quals.aliasSym
  | _ => fd.name

/-- The symbol of a global variable. -/
def GlobalVar.sym (g : GlobalVar) : String :=
  match g.linkage with
  | .externAlias | .importAlias => g.aliasSym
  | _ => g.decl.name

/-- `isDecl`: the variable is somewhere else. -/
def GlobalVar.isDecl (g : GlobalVar) : Bool :=
  match g.linkage with
  | .externAlias | .importAlias | .externL | .importL => true
  | _ => false

/-- A dup that supplies the storage of an earlier reference. -/
def GlobalVar.supplies (g : GlobalVar) : Bool :=
  match g.linkage with
  | .normal | .publicL | .staticL => true
  | _ => false

end Hlang.Parser

namespace Hlang.Codegen

open Ir Gen Cg
open Hlang.Parser (TopItem GlobalVar)

/-! ## The module -/

/-- `llvm::FunctionType`. -/
structure FnTy where
  ret : LTy
  params : List LTy
deriving DecidableEq

/-- `llvmFnType`. -/
def llvmFnType (ft : FuncType) : FnTy where
  ret := retTy ft.ret
  params := (ft.params.map fun p => if p.type.isF64 then .double else .int 64) ++
    if ft.variadic then [.int 64, .int 64] else []

/-- `llvm::Function`. -/
structure Function where
  name : String
  type : FnTy
  internal : Bool

/-- `llvm::GlobalVariable`; a declaration has no initializer. -/
structure GlobalVariable where
  name : String
  type : LTy
  init : Option Const
  internal : Bool

/-- The names LLVM gives to values that ask for a name that is taken. -/
structure Renaming where
  rename : List String → String → String
  /-- the new name is not taken -/
  fresh : ∀ taken name, rename taken name ∉ taken
  /-- it has a dot before its number -/
  dotted : ∀ taken name, '.' ∈ (rename taken name).toList

/-- `llvm::Module`, with the names of its values. -/
structure Mod where
  names : List String := []
  fns : List Function := []
  vars : List GlobalVariable := []

/-- `getFunction`. -/
def Mod.getFunction (M : Mod) (sym : String) : Option Function := M.fns.find? (·.name = sym)

/-- The initializer of a variable set. -/
def Mod.setInitializer (M : Mod) (name : String) (c : Const) : Mod :=
  { M with vars := M.vars.map fun v => if v.name = name then { v with init := some c } else v }

/-- What `CG` keeps while it declares. -/
structure Declaring where
  mod : Mod := {}
  uniq : Nat := 0
  strLits : List String := []
  bodyDeclared : List String := []
  funcs : List (String × FuncSym) := []
  globals : List (String × VarSym) := []

/-- A declared item: the `Function*` that `declToFn_` has for a function, and the initialiser of a
variable that is left to be executed. -/
inductive DeclaredItem where
  | func (fd : Parser.FuncDecl) (fn : Function)
  | global (name : String) (init : Option Expr)
  | stmt (s : Stmt)
  | classDef

/-- The value of `funcs_` for a function. -/
def funcSym (fd : Parser.FuncDecl) (fn : Function) : FuncSym := ⟨some (.fn fn.name), fd.type⟩

section Declare

variable (R : Renaming)

/-- The name a new value of the module gets. -/
def Mod.uniqueName (M : Mod) (name : String) : String :=
  if name ∈ M.names then R.rename M.names name else name

/-- `Function::Create`. -/
def Mod.createFunction (M : Mod) (name : String) (type : FnTy) (internal : Bool) :
    Function × Mod :=
  let f : Function := ⟨M.uniqueName R name, type, internal⟩
  (f, { M with names := f.name :: M.names, fns := M.fns ++ [f] })

/-- `new GlobalVariable`. -/
def Mod.createVariable (M : Mod) (name : String) (type : LTy) (init : Option Const)
    (internal : Bool) : GlobalVariable × Mod :=
  let v : GlobalVariable := ⟨M.uniqueName R name, type, init, internal⟩
  (v, { M with names := v.name :: M.names, vars := M.vars ++ [v] })

/-- `stringConst`. -/
def stringConst (s : String) (S : Declaring) : Declaring :=
  if s ∈ S.strLits then S
  else
    { S with
      mod := { S.mod with names := S.mod.uniqueName R (".str" ++ toString S.uniq) :: S.mod.names }
      uniq := S.uniq + 1
      strLits := s :: S.strLits }

/-- The function of the module that a declaration is about, if there is one. -/
def Declaring.known (S : Declaring) (fd : Parser.FuncDecl) : Option Function :=
  match S.mod.getFunction fd.sym with
  | none => none
  | some f =>
      if f.type ≠ llvmFnType fd.type then none
      else if fd.hasBody && decide (fd.sym ∈ S.bodyDeclared) then none
      else some f

/-- A new function for a declaration. -/
def createFor (fd : Parser.FuncDecl) (S : Declaring) : Function × Declaring :=
  let internal := decide (fd.quals.linkage = .staticL)
  let taken := (S.mod.getFunction fd.sym).isSome
  let name := if taken then fd.sym ++ "." ++ toString S.uniq else fd.sym
  let new := S.mod.createFunction R name (llvmFnType fd.type) internal
  (new.1, { S with mod := new.2, uniq := if taken then S.uniq + 1 else S.uniq })

/-- `declareFunc`. -/
def declareFunc (fd : Parser.FuncDecl) (S : Declaring) : Function × Declaring :=
  let found :=
    match S.known fd with
    | some f => (f, S)
    | none => createFor R fd S
  (found.1, if fd.hasBody then
    { found.2 with bodyDeclared := fd.sym :: found.2.bodyDeclared } else found.2)

/-- The first occurrence of a function binds its name. -/
def bindFirst (name : String) (sym : FuncSym) (S : Declaring) : Declaring :=
  match S.funcs.lookup name with
  | some _ => S
  | none => { S with funcs := (name, sym) :: S.funcs }

/-- The string constant whose address a constant has. -/
def noteString (c : Const) (S : Declaring) : Declaring :=
  match c with
  | .strAddr _ s => stringConst R s S
  | _ => S

variable (Γ : Env)

/-- The end of `declareGlobal`: a constant initialiser is folded, others are left. -/
def foldInit (g : GlobalVar) (v : GlobalVariable) (S : Declaring) :
    Except Stop (Option Expr × Declaring) :=
  match g.isDecl, g.decl.init with
  | false, some e =>
      match Γ.tryConstInit e g.decl.type with
      | .ok c =>
          let S := noteString R c S
          .ok (none, { S with mod := S.mod.setInitializer v.name c })
      | .error .notConst => .ok (some e, S)
      | .error .undefined => .error .undefined
  | _, init => .ok (init, S)

/-- `declareGlobal`. -/
def declareGlobal (g : GlobalVar) (S : Declaring) : Except Stop (Option Expr × Declaring) :=
  let mt := Γ.memTy g.decl.type
  let init := if g.isDecl then none else some (.null mt)
  let new := S.mod.createVariable R g.sym mt init (decide (g.linkage = .staticL))
  foldInit R Γ g new.1 { S with
    mod := new.2
    globals := (g.decl.name, ⟨.glob new.1.name, g.decl.type⟩) :: S.globals }

/-- A dup of a global variable: the storage of an earlier reference is supplied. -/
def supplyStorage (v : VarSym) (S : Declaring) : Declaring :=
  match S.mod.vars.find? fun gv => v.addr = .glob gv.name with
  | some gv =>
      if gv.init.isNone then
        { S with mod := S.mod.setInitializer gv.name (.null gv.type) }
      else S
  | none => S

/-- A global variable in the first pass. -/
def declareVariable (g : GlobalVar) (S : Declaring) : Except Stop (DeclaredItem × Declaring) :=
  match S.globals.lookup g.decl.name with
  | none => do
      let (init, S) ← declareGlobal R Γ g S
      return (.global g.decl.name init, S)
  | some v => .ok (.global g.decl.name g.decl.init, if g.supplies then supplyStorage v S else S)

/-- An item of the first pass. -/
def declareItem (item : TopItem) (S : Declaring) : Except Stop (DeclaredItem × Declaring) :=
  match item with
  | .func fd =>
      let f := declareFunc R fd S
      .ok (.func fd f.1, bindFirst fd.name (funcSym fd f.1) f.2)
  | .global g => declareVariable R Γ g S
  | .stmt s => .ok (.stmt s, S)
  | .classDef _ => .ok (.classDef, S)

/-- The first pass. -/
def declareItems : List TopItem → Declaring → Except Stop (List DeclaredItem × Declaring)
  | [], S => .ok ([], S)
  | item :: items, S => do
      let (d, S) ← declareItem R Γ item S
      let (ds, S) ← declareItems items S
      return (d :: ds, S)

end Declare

/-! ## The walk over the items -/

/-- What the second pass carries: the table of functions, the startup function, and the bodies
that are done. -/
structure Walk where
  funcs : List (String × FuncSym)
  startup : FnCtx
  bodies : List (String × FnCtx) := []

section Walk

variable (Γ : Env) (d : Nat)

/-- The body of a function, if it has one. -/
def genBody (fd : Parser.FuncDecl) (fn : Function) (W : Walk) : Except Stop Walk :=
  match fd.body with
  | none => .ok W
  | some body => do
      let F ← genFuncBody { Γ with funcs := W.funcs } d
        { name := fn.name, type := fd.type, body := body }
      return { W with bodies := W.bodies ++ [(fn.name, F)] }

/-- Code appended to the startup function. -/
def appendStartup (x : Cg Unit) (W : Walk) : Except Stop Walk := do
  let (_, F) ← x W.startup
  return { W with startup := F }

/-- The dynamic initialiser of a global variable. -/
def genGlobalInit (name : String) (init : Option Expr) : Cg Unit :=
  match Γ.globals.lookup name with
  | some v => genInitIn Γ d v.addr v.type init
  | none => pure ()

/-- An item of the second pass. -/
def walkItem (startName : String) (item : DeclaredItem) (W : Walk) : Except Stop Walk :=
  match item with
  | .func fd fn => genBody Γ d fd fn { W with funcs := (fd.name, funcSym fd fn) :: W.funcs }
  | .global name init =>
      appendStartup (genGlobalInit { Γ with funcs := W.funcs } d name init) W
  | .stmt s => appendStartup (genStmt { Γ with funcs := W.funcs } d startName [] s) W
  | .classDef => .ok W

/-- The second pass. -/
def walkItems (startName : String) : List DeclaredItem → Walk → Except Stop Walk
  | [], W => .ok W
  | item :: items, W => do walkItems startName items (← walkItem Γ d startName item W)

end Walk

/-! ## The file -/

/-- `CodegenResult`: the module, the code of its functions, and the functions the file is entered
by; with `-c` and `-o` there is a `main`. -/
structure Compiled where
  mod : Mod
  bodies : List (String × FnCtx)
  start : Function
  startup : FnCtx
  main : Option Function

/-- `ok`. -/
def Compiled.ok (M : Compiled) : Bool :=
  M.startup.b.errors.isEmpty && M.bodies.all (·.2.b.errors.isEmpty)

/-- The type of `__HC_startup`. -/
def startType : FuncType := ⟨.void, [], false⟩

/-- `main` for an executable. -/
def createMain (R : Renaming) (aot : Bool) (M : Mod) : Option Function × Mod :=
  if aot then
    let new := M.createFunction R "main" ⟨.int 32, [.int 32, .ptr]⟩ false
    (some new.1, new.2)
  else (none, M)

section Run

variable (R : Renaming) (Γ : Env) (d : Nat) (aot : Bool)

/-- The tables after the first pass. -/
def Declaring.env (S : Declaring) : Env := { Γ with funcs := S.funcs, globals := S.globals }

/-- `CG::run`. -/
def run (items : List TopItem) : Except Stop Compiled := do
  let (ds, S) ← declareItems R Γ items {}
  let start := S.mod.createFunction R "__HC_startup" (llvmFnType startType) false
  let W ← walkItems (S.env Γ) d start.1.name ds ⟨S.funcs, beginFn startType, []⟩
  let (_, startup) ← finishFn start.1.name W.startup
  let main := createMain R aot start.2
  return ⟨main.2, W.bodies, start.1, startup, main.1⟩

end Run

end Hlang.Codegen
