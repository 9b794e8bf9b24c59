import Hlang.Token

/-!
# Hlang.Driver.Compile — one run of the compiler

`compileMain`, with the options, the stages it goes through and the flags it asks between
them, and `runExeSnippet`, the compilation inside the compilation. Of the lexer and the
parser it keeps what the driver sees of them: they report errors, hand `#exe{}` blocks over,
and end with a program (`Front`). Files, LLVM, the JIT and the linker act on an abstract
world (`Sys`).
-/

namespace Hlang.Driver

/-! ## Reports -/

/-- Who reports an error. -/
inductive Stage where
  | lexer
  | parser
  | codegen
  | exe
deriving DecidableEq

/-- A message of severity error. -/
structure Report where
  stage : Stage
  text : String
deriving DecidableEq

/-- What a run of the compiler leaves behind. -/
structure Session (ω : Type) where
  world : ω
  reports : List Report := []
  /-- the program has been started -/
  ran : Bool := false
  /-- the files the output stage has created -/
  written : List String := []

/-- A step of the compiler; without a result the process is at an end, or goes on forever. -/
def Proc (ω α : Type) : Type := Session ω → Option α × Session ω

instance (ω : Type) : Monad (Proc ω) where
  pure a s := (some a, s)
  bind x f s :=
    match x s with
    | (some a, s') => f a s'
    | (none, s') => (none, s')

section Compile

variable {ω Prog Mod : Type}

/-- `fprintf(stderr, ..)` of an error. -/
def report (stage : Stage) (text : String) : Proc ω Unit :=
  fun s => (some (), { s with reports := s.reports ++ [⟨stage, text⟩] })

/-- What is done to the world. -/
def act {α : Type} (f : ω → Option α × ω) : Proc ω α :=
  fun s => ((f s.world).1, { s with world := (f s.world).2 })

/-- What is read off the world. -/
def ask {α : Type} (f : ω → α) : Proc ω α := fun s => (some (f s.world), s)

/-- `SrcLoc::str` -/
def locStr (loc : SrcLoc) : String := loc.file ++ ":" ++ toString loc.line ++ ":" ++ toString loc.col

/-- The text of `error`. -/
def errorText (loc : SrcLoc) (msg : String) : String := locStr loc ++ ": error: " ++ msg

/-! ## Lexer and parser -/

/-- What lexing and parsing a source does, as the driver sees it. -/
inductive Front (ω Prog : Type) where
  | done (prog : Prog)
  | lexError (loc : SrcLoc) (msg : String) (next : Front ω Prog)
  | parseError (loc : SrcLoc) (msg : String) (next : Front ω Prog)
  /-- `#exe{}`, with the position and the text of the block; the text that comes back is
  lexed next, and the files that are included may be others -/
  | exe (loc : SrcLoc) (body : String) (next : String → ω → Front ω Prog)

/-- `Lexer::hadError_` and `Parser::Impl::hadError`. -/
structure Flags where
  lexer : Bool := false
  parser : Bool := false

/-- `ExeHook` -/
abbrev ExeHook (ω : Type) := String → SrcLoc → Proc ω String

/-- `Parser::Impl::run`, over the lexer with its hook. -/
def run (exeHook : Option (ExeHook ω)) : Front ω Prog → Flags → Proc ω (Prog × Flags)
  | .done prog, fl => pure (prog, fl)
  | .lexError loc msg next, fl => do
      report .lexer (errorText loc msg)
      run exeHook next { fl with lexer := true }
  | .parseError loc msg next, fl => do
      report .parser (errorText loc msg)
      run exeHook next { fl with parser := true }
  | .exe loc body next, fl => do
      -- the end of `handleExeBlock`
      match exeHook with
      | none =>
          report .lexer (errorText loc "#exe{} is not available in this compilation mode")
          fun s => run exeHook (next "" s.world) { fl with lexer := true } s
      | some hook =>
          let inject ← hook body loc
          fun s => run exeHook (next inject s.world) fl s

/-- `Parser::parseProgram`, and `hadError` after it. -/
def parseProgram (exeHook : Option (ExeHook ω)) (front : Front ω Prog) : Proc ω (Prog × Bool) := do
  let (prog, fl) ← run exeHook front {}
  return (prog, fl.parser || fl.lexer)

/-! ## What is outside -/

/-- Where the lexer takes its text from. -/
inductive Input where
  | file (path prelude : String) (jitMode : Bool) (includeDirs : List String)
  | buffer (buf name : String)

/-- The file system, the front end on a source, the code generator's messages, LLVM, the JIT
and the linker. -/
structure Sys (ω Prog Mod : Type) where
  exeDir : String
  devLibDir : Option String
  /-- `access` -/
  fileExists : ω → String → Bool
  /-- `std::ifstream` -/
  opens : ω → String → Bool
  front : Input → ω → Front ω Prog
  /-- `CG::run`: the errors it reports and the module -/
  codegen : Prog → String → Bool → List String × Mod
  optimizeModule : Mod → Int → Mod
  /-- `makeJit`: whether it is `ok` -/
  makeJit : Mod → Int → ω → Bool × ω
  /-- the lookup of `__HC_startup`: the error when it fails -/
  lookup : Mod → ω → Option String
  /-- a snippet: what it prints to the stream -/
  runSnippet : Mod → ω → Option String × ω
  /-- the program, with its arguments -/
  runProgram : Mod → List String → ω → Option Unit × ω
  /-- the object file can be created -/
  createsObject : Mod → String → ω → Bool
  /-- the target can emit object files -/
  emits : Mod → Bool
  /-- `linkExecutable` -/
  linkExecutable : String → String → String → ω → Bool × ω
  /-- `remove` -/
  remove : String → ω → ω

variable (S : Sys ω Prog Mod)

/-- `codegen`: whether it is `ok`, and the module. -/
def codegen (prog : Prog) (moduleName : String) (aotMode : Bool) : Proc ω (Bool × Mod) := do
  let (errs, m) := S.codegen prog moduleName aotMode
  errs.forM fun text => report .codegen text
  return (errs.isEmpty, m)

/-- `makeJit`: whether it is `ok`. -/
def makeJit (m : Mod) (optLevel : Int) : Proc ω Bool :=
  act fun w => (some (S.makeJit m optLevel w).1, (S.makeJit m optLevel w).2)

/-! ## `#exe{}` -/

/-- The text of a snippet. -/
def snippet (preludePath src : String) : String :=
  if preludePath ≠ "" then "#include \"" ++ preludePath ++ "\"\n" ++ src else src

/-- The program of a source, in the world as it is. -/
def parseInput (exeHook : Option (ExeHook ω)) (input : Input) : Proc ω (Prog × Bool) :=
  fun s => parseProgram exeHook (S.front input s.world) s

/-- The rest of `runExeSnippet`, for its module. -/
def loadSnippet (m : Mod) : Proc ω (String × Bool) := do
  if !(← makeJit S m 0) then return ("", false)
  match ← ask (S.lookup m) with
  | some err =>
      report .exe ("hcc: #exe: " ++ err)
      return ("", false)
  | none =>
      let out ← act (S.runSnippet m)
      return (out, true)

/-- `runExeSnippet`: what the block prints, and `*ok`. -/
def runExeSnippet (src name preludePath : String) : Proc ω (String × Bool) := do
  let (prog, hadError) ← parseInput S none (.buffer (snippet preludePath src) name)
  if hadError then return ("", false)
  let (ok, m) ← codegen S prog name false
  if !ok then return ("", false)
  loadSnippet S m

/-- The hook of `compileMain`. -/
def exeHook (preludePath : String) : ExeHook ω := fun src loc => do
  let (out, ok) ← runExeSnippet S src (locStr loc ++ ":<#exe>") preludePath
  if !ok then report .exe (errorText loc "#exe{} block failed")
  return out

/-! ## Options -/

/-- The command line. -/
structure Options where
  input : String := ""
  outExe : String := ""
  outObj : String := ""
  emitLL : Bool := false
  noPrelude : Bool := false
  noRun : Bool := false
  optLevel : Int := 0
  includeDirs : List String := []
  progArgs : List String := []

/-- `-o` or `-c` is given. -/
def Options.aotMode (o : Options) : Bool := o.outExe ≠ "" || o.outObj ≠ ""

/-- `-O0` .. `-O3`: any option of three bytes that starts with `-O`. -/
def optLevelOf (a : String) : Option Int :=
  match a.toList with
  | ['-', 'O', c] => if c.toNat < 128 then some (c.toNat - '0'.toNat) else none
  | _ => none

/-- The loop over `argv`; `none` for an option that is not known or a second input. -/
def parseArgs : List String → Options → Option Options
  | [], o => some o
  | "--" :: rest, o => some { o with progArgs := o.progArgs ++ rest }
  | "-o" :: a :: rest, o => parseArgs rest { o with outExe := a }
  | "-c" :: a :: rest, o => parseArgs rest { o with outObj := a }
  | "-I" :: a :: rest, o => parseArgs rest { o with includeDirs := o.includeDirs ++ [a] }
  | "--emit-llvm" :: rest, o => parseArgs rest { o with emitLL := true }
  | "--no-prelude" :: rest, o => parseArgs rest { o with noPrelude := true }
  | "--no-run" :: rest, o => parseArgs rest { o with noRun := true }
  | a :: rest, o =>
      match optLevelOf a with
      | some n => parseArgs rest { o with optLevel := n }
      | none =>
          if a.startsWith "-" then none
          else if o.input = "" then parseArgs rest { o with input := a }
          else none

/-! ## `compileMain` -/

/-- `findPrelude`, `""` when there is none. -/
def findPrelude (w : ω) : String :=
  let next := S.exeDir ++ "/lib/HolyC.HH"
  if S.fileExists w next then next
  else match S.devLibDir with
    | some dir => if S.fileExists w (dir ++ "/HolyC.HH") then dir ++ "/HolyC.HH" else ""
    | none => ""

/-- `emitObjectFile` -/
def emitObjectFile (m : Mod) (path : String) : Proc ω Bool := fun s =>
  if S.createsObject m path s.world then
    (some (S.emits m), { s with written := s.written ++ [path] })
  else (some false, s)

/-- The object file. -/
def Options.obj (o : Options) : String := if o.outObj = "" then o.outExe ++ ".o" else o.outObj

/-- The object file is linked, and removed unless it was asked for. -/
def linkOutput (o : Options) : Proc ω Nat := do
  let rt := S.exeDir ++ "/libhcrt.a"
  if !(← ask (S.fileExists · rt)) then return 1
  if !(← act fun w => (some (S.linkExecutable o.obj o.outExe rt w).1,
      (S.linkExecutable o.obj o.outExe rt w).2)) then return 1
  if o.outObj = "" then act fun w => (some (), S.remove o.obj w)
  return 0

/-- The branch of `compileMain` for `-o` and `-c`. -/
def emitOutput (o : Options) (m : Mod) : Proc ω Nat := do
  if !(← emitObjectFile S m o.obj) then return 1
  if o.outExe ≠ "" then linkOutput S o else return 0

/-- The program is started. -/
def startProgram (o : Options) (m : Mod) : Proc ω Nat := do
  fun s => (some (), { s with ran := true })
  act (S.runProgram m (o.input :: o.progArgs))
  return 0

/-- `runJIT` -/
def runJIT (o : Options) (m : Mod) : Proc ω Nat := do
  if !(← makeJit S m o.optLevel) then return 1
  if (← ask (S.lookup m)).isSome then return 1
  if o.noRun then return 0 else startProgram S o m

/-- `optimizeModule`, from `-O1` on. -/
def optimized (o : Options) (m : Mod) : Mod :=
  if o.optLevel > 0 then S.optimizeModule m o.optLevel else m

/-- `compileMain` behind the code generator. -/
def output (o : Options) (m : Mod) : Proc ω Nat :=
  if o.emitLL && !o.aotMode then return 0
  else if o.aotMode then emitOutput S o (optimized S o m)
  else runJIT S o (optimized S o m)

/-- `compileMain` from the parser on. -/
def compileSource (o : Options) (prelude : String) : Proc ω Nat := do
  let (prog, hadError) ← parseInput S (some (exeHook S prelude))
    (.file o.input prelude (!o.aotMode) o.includeDirs)
  if hadError then return 1
  let (ok, m) ← codegen S prog o.input o.aotMode
  if !ok then return 1
  output S o m

/-- The prelude that is included first. -/
def preludeOf (o : Options) (w : ω) : String := if o.noPrelude then "" else findPrelude S w

/-- `compileMain` from the lexer on. -/
def openSource (o : Options) (prelude : String) : Proc ω Nat := do
  if !(← ask (S.opens · o.input)) then
    report .lexer ("hcc: cannot open '" ++ o.input ++ "'")
    return 1
  if prelude ≠ "" && !(← ask (S.opens · prelude)) then return 1
  compileSource S o prelude

/-- `compileMain` behind the command line. -/
def compile (o : Options) : Proc ω Nat := do
  if o.input = "" then return 2
  let prelude ← ask (preludeOf S o)
  if !o.noPrelude && prelude = "" then return 2
  openSource S o prelude

/-- `compileMain`: the status it returns. -/
def compileMain (args : List String) : Proc ω Nat :=
  match parseArgs args {} with
  | none => return 2
  | some o => compile S o

end Compile

end Hlang.Driver
