import Hlang.Codegen.Fold
import Hlang.Parser.Expr
import Hlang.Stmt

/-!
# Hlang.Parser.Statement — declarators and statements

`Parser::Impl::parseStmt` and what it calls, among them the declarators, the
parameter lists and the three loops that look for a place to go on after an
error. As for expressions, recursion and loops are bounded by a number.
-/

namespace Hlang.Parser

open Lexer (eofToken)
open Codegen (evalConstI64)

/-- `isIdent`. -/
def isIdent (name : String) (k : Nat) : Parse Bool := do return (← tok k).isIdent name

/-! ## Going on after an error -/

/-- The loop of `skipToSemi`: the tokens behind the semicolon that it looks for. -/
def afterSemi (depth : Int) : List Token → List Token
  | [] => []
  | t :: ts =>
      if t.kind = .eof then t :: ts
      else
        let depth := if t.is .lBrace then depth + 1 else if t.is .rBrace then depth - 1 else depth
        if t.is .semi && depth ≤ 0 then ts else afterSemi depth ts

/-- The loop of `skipBraceBlock`. -/
def afterBlock (depth : Int) : List Token → List Token
  | [] => []
  | t :: ts =>
      if t.kind = .eof then t :: ts
      else if t.is .rBrace then if depth - 1 = 0 then ts else afterBlock (depth - 1) ts
      else afterBlock (if t.is .lBrace then depth + 1 else depth) ts

/-- The loop of `skipToParenEnd`. -/
def afterParen (depth : Int) : List Token → List Token
  | [] => []
  | t :: ts =>
      if t.kind = .eof then t :: ts
      else if t.is .rParen then if depth - 1 = 0 then ts else afterParen (depth - 1) ts
      else afterParen (if t.is .lParen then depth + 1 else depth) ts

/-- Replace the tokens that are left. -/
def skipBy (f : List Token → List Token) : Parse Unit :=
  fun s => some ((), { s with toks := f s.toks })

/-- `skipToSemi`. -/
def skipToSemi : Parse Unit := skipBy (afterSemi 0)

/-- `skipBraceBlock`. -/
def skipBraceBlock : Parse Unit := do
  if ← is .lBrace 0 then skipBy (afterBlock 0) else skipToSemi

/-- `skipToParenEnd`. -/
def skipToParenEnd : Parse Unit := skipBy (afterParen 1)

/-! ## Declarators -/

/-- What the parser of declarations reads from outside the tokens: the text of a double, and
the value that `evalConstI64` leaves where the arithmetic of C++ has no defined result. -/
structure FileEnv where
  showFloat : ℚ → String := fun _ => ""
  undefinedDim : Expr → I64 := fun _ => 0

section Declarators

variable (F : FileEnv) (E : ParseEnv) (expr : Parse Expr)

/-- The stars and the register words before the name of a declarator. -/
def declaratorWords : Nat → Ty → Parse Ty
  | 0, _ => stuck
  | n + 1, ty => do
      if ← is .star 0 then
        let _ ← take
        declaratorWords n (.ptr ty)
      else if ← isIdent "reg" 0 then
        let _ ← take
        -- the name of a register, where the name of the variable is still to come
        if (← tok 0).kind = .ident ∧ (← tok 1).kind = .ident then
          let _ ← take
          declaratorWords n ty
        else declaratorWords n ty
      else if ← isIdent "noreg" 0 then
        let _ ← take
        declaratorWords n ty
      else return ty

/-- The value of an array dimension. -/
def dimension (loc : SrcLoc) (dim : Expr) : Parse I64 := do
  let bad : Parse I64 := do
    error loc "array dimension must be a constant expression"
    return 1
  match evalConstI64 E.prog.heap dim with
  | .ok v => if v.slt 0 then bad else return v
  | .error .notConst => bad
  | .error .undefined =>
      let v := F.undefinedDim dim
      if v.slt 0 then bad else return v

/-- The array dimensions behind the name of a declarator; a parameter `[]` is a pointer. -/
def dimensions (isParam : Bool) (loc : SrcLoc) : Nat → Ty → List I64 → Parse (Ty × List I64)
  | 0, _, _ => stuck
  | n + 1, ty, dims => do
      if ← accept .lBracket then
        if (← is .rBracket 0) && isParam then
          let _ ← take
          dimensions isParam loc n (.ptr ty) dims
        else
          let dim ← expr
          let v ← dimension F E loc dim
          expect E .rBracket "after array dimension"
          dimensions isParam loc n ty (dims ++ [v])
      else return (ty, dims)

/-- The end of `parseDeclarator`: the initialiser. -/
def declaratorInit (allowInit : Bool) (name : Token) (ty : Ty) : Parse (Option VarDeclarator) := do
  if allowInit then
    if ← accept .assign then
      return some { name := name.text, type := ty, init := some (← expr), loc := name.loc }
    else return some { name := name.text, type := ty, loc := name.loc }
  else return some { name := name.text, type := ty, loc := name.loc }

/-- `parseDeclarator`, with `parseAssign` and `parseParams`: `none` where it returns false. -/
def declaratorStep (n : Nat) (params : Parse (List FuncParam × Bool)) (base : Ty)
    (allowInit isParam : Bool) : Parse (Option VarDeclarator) := do
  let ty ← declaratorWords n base
  if (← is .lParen 0) && (← is .star 1) then
    let _ ← take
    let _ ← take
    let t ← tok 0
    if t.kind ≠ .ident then
      error t.loc "expected function pointer name"
      return none
    else
      let name ← take
      expect E .rParen "after function pointer name"
      expect E .lParen "in function pointer declarator"
      let (ps, variadic) ← params
      declaratorInit expr allowInit name (.ptr (.func ty ps variadic))
  else
    let t ← tok 0
    if t.kind ≠ .ident then
      if isParam then return some { name := "", type := ty } else return none
    else
      let name ← take
      let (ty, dims) ← dimensions F E expr isParam name.loc n ty []
      -- the last dimension is the innermost one
      declaratorInit expr allowInit name (dims.foldr (fun n ty => .array ty n) ty)

/-- The name and the type of a parameter, behind its type name. -/
def paramDeclarator (decl : Ty → Parse (Option VarDeclarator)) (base : Ty) :
    Parse (String × Ty) := do
  let t ← tok 0
  if t.kind = .ident || t.is .lParen then
    match ← decl base with
    | some d => return (d.name, d.type)
    | none => return ("", base)
  else return ("", base)

/-- The default of a parameter. -/
def paramDefault (name : String) (ty : Ty) : Parse FuncParam := do
  if ← accept .assign then
    if ← isIdent "lastclass" 0 then
      let _ ← take
      return .mk name ty none true
    else return .mk name ty (some (← expr)) false
  else return .mk name ty none false

/-- The loop of `parseParams`. -/
def paramsRest (decl : Ty → Parse (Option VarDeclarator)) :
    Nat → List FuncParam → Parse (List FuncParam × Bool)
  | 0, _ => stuck
  | n + 1, params => do
      if ← accept .ellipsis then
        expect E .rParen "after ..."
        return (params, true)
      else
        let t ← tok 0
        if !isTypeName E t then
          error t.loc ("expected parameter type (got '" ++ E.describe t ++ "')")
          skipToParenEnd
          return (params, false)
        else
          let base ← parseBaseType E
          let (name, ty) ← paramDeclarator decl base
          let p ← paramDefault expr name ty
          if ← accept .comma then paramsRest decl n (params ++ [p])
          else
            expect E .rParen "after parameters"
            return (params ++ [p], false)

/-- `parseParams`, with `parseDeclarator`: the parameters, and whether there are more. -/
def paramsStep (decl : Ty → Parse (Option VarDeclarator)) (n : Nat) :
    Parse (List FuncParam × Bool) := do
  if ← accept .rParen then return ([], false) else paramsRest E expr decl n []

end Declarators

/-- `parseDeclarator`. -/
def parseDeclarator (F : FileEnv) (E : ParseEnv) :
    Nat → Ty → Bool → Bool → Parse (Option VarDeclarator)
  | 0, _, _, _ => stuck
  | n + 1, base, allowInit, isParam =>
      declaratorStep F E (parseAssign E n) n
        (paramsStep E (parseAssign E n) (fun base => parseDeclarator F E n base false true) n)
        base allowInit isParam

/-- `parseParams`. -/
def parseParams (F : FileEnv) (E : ParseEnv) (n : Nat) : Parse (List FuncParam × Bool) :=
  paramsStep E (parseAssign E n) (fun base => parseDeclarator F E n base false true) n

/-- `parseBaseTypeNoStars`. -/
def parseBaseTypeNoStars (E : ParseEnv) : Parse Ty := do
  let t ← take
  match E.prog.baseTypeFor t.text with
  | some ty => return ty
  | none =>
      error t.loc ("unknown type '" ++ t.text ++ "'")
      return Ty.i64

/-- `startsDecl`. -/
def startsDecl : Parse Bool := fun s =>
  let rest := s.toks.drop 1
  let rest := rest.drop (starCount rest)
  some (((rest.headD eofToken).kind = .ident : Bool) ||
    (rest.headD eofToken).is .lParen && ((rest.drop 1).headD eofToken).is .star, s)

/-! ## Statements -/

section Statements

variable (E : ParseEnv) (expr : Parse Expr) (decl : Ty → Bool → Bool → Parse (Option VarDeclarator))
  (stmt : Parse Stmt)

/-- The loop of `parseExprList`. -/
def exprListRest : Nat → List Expr → Parse (List Expr)
  | 0, _ => stuck
  | n + 1, es => do
      let e ← expr
      if ← accept .comma then exprListRest n (es ++ [e]) else return es ++ [e]

/-- What stands before the token `p`, if something does. -/
def optional {α : Type} (p : P) (d : α) (x : Parse α) : Parse α := do
  if ← is p 0 then return d else x

/-- An expression before the token `p`, if there is one. -/
def optionalExpr (p : P) : Parse (Option Expr) := optional p none do return some (← expr)

/-- `parseExprList`. -/
def parseExprList (n : Nat) : Parse (List Expr) := exprListRest expr n []

/-- The loop of `parseBlock`. -/
def blockRest (loc : SrcLoc) : Nat → List Stmt → Parse (List Stmt)
  | 0, _ => stuck
  | n + 1, body => do
      let t ← tok 0
      if t.is .rBrace then
        let _ ← take
        return body
      else if t.kind = .eof then
        error loc "unterminated block"
        return body
      else
        let s ← stmt
        blockRest loc n (body ++ [s])

/-- `parseBlock`: its position and its statements. -/
def parseBlock (n : Nat) : Parse (SrcLoc × List Stmt) := do
  let lb ← take
  return (lb.loc, ← blockRest stmt lb.loc n [])

/-- The further arguments of a print statement. -/
def printArgs : Nat → List (Option Expr) → Parse (List (Option Expr))
  | 0, _ => stuck
  | n + 1, args => do
      if ← accept .comma then
        let e ← expr
        printArgs n (args ++ [some e])
      else return args

/-- The first argument of a print statement: the text, or, where it is empty, what follows. -/
def printFormat (loc : SrcLoc) (fmt : String) : Parse Expr := do
  let t ← tok 0
  if !t.is .comma && !t.is .semi && fmt = "" then expr
  else return .strLit (← mkE loc) fmt

/-- `parsePrintStmt`. -/
def parsePrintStmt (n : Nat) : Parse Stmt := do
  let first ← tok 0
  let fmt ← adjacent n ""
  let call ← mkE first.loc
  let callee ← mkE first.loc
  let arg ← printFormat expr first.loc fmt
  let args ← printArgs expr n [some arg]
  expect E .semi "after print statement"
  return .expr first.loc (.call call (.ident callee "Print") args)

/-- The argument of a character statement: the constant, or, where it is empty, what follows. -/
def charArg (lit : Token) : Parse Expr := do
  if lit.text = "" then expr else return .charLit (← mkE lit.loc) lit.ival

/-- `parsePutCharsStmt`. -/
def parsePutCharsStmt : Parse Stmt := do
  let lit ← take
  let call ← mkE lit.loc
  let callee ← mkE lit.loc
  let arg ← charArg expr lit
  expect E .semi "after char statement"
  return .expr lit.loc (.call call (.ident callee "PutChars") [some arg])

/-- `parseIf`. -/
def parseIf : Parse Stmt := do
  let kw ← take
  expect E .lParen "after if"
  let e ← expr
  expect E .rParen "after if condition"
  let body ← stmt
  if ← isIdent "else" 0 then
    let _ ← take
    let body2 ← stmt
    return .ifS kw.loc e body (some body2)
  else return .ifS kw.loc e body none

/-- `parseWhile`. -/
def parseWhile : Parse Stmt := do
  let kw ← take
  expect E .lParen "after while"
  let e ← expr
  expect E .rParen "after while condition"
  let body ← stmt
  return .whileS kw.loc e body

/-- What a node has for a condition that an error left null. -/
def nullExpr : Expr := .intLit {} 0

/-- `parseDoWhile`. -/
def parseDoWhile : Parse Stmt := do
  let kw ← take
  let body ← stmt
  let t ← tok 0
  if !t.isIdent "while" then
    error t.loc "expected while after do body"
    return .doWhile kw.loc nullExpr body
  else
    let _ ← take
    expect E .lParen "after do..while"
    let e ← expr
    expect E .rParen "after do..while condition"
    expect E .semi "after do..while"
    return .doWhile kw.loc e body

/-- `parseFor`. -/
def parseFor (n : Nat) : Parse Stmt := do
  let kw ← take
  expect E .lParen "after for"
  let init ← optional .semi [] (parseExprList expr n)
  expect E .semi "after for-init"
  let cond ← optionalExpr expr .semi
  expect E .semi "after for-condition"
  let post ← optional .rParen [] (parseExprList expr n)
  expect E .rParen "after for header"
  let body ← stmt
  return .forS kw.loc init cond post body

/-- `parseSwitch`. -/
def parseSwitch : Parse Stmt := do
  let kw ← take
  if ← accept .lBracket then
    let e ← expr
    expect E .rBracket "after switch [expr]"
    let body ← stmt
    return .switchS kw.loc e body
  else
    expect E .lParen "after switch"
    let e ← expr
    expect E .rParen "after switch expression"
    let body ← stmt
    return .switchS kw.loc e body

/-- The values of `parseCase`. -/
def caseValues : Parse (Option (Expr × Option Expr)) := do
  if ← is .colon 0 then return none
  else
    let lo ← expr
    if ← accept .ellipsis then
      let hi ← expr
      return some (lo, some hi)
    else return some (lo, none)

/-- `parseCase`. -/
def parseCase : Parse Stmt := do
  let kw ← take
  let values ← caseValues expr
  expect E .colon "after case"
  return .caseS kw.loc values

/-- `parseTry`. -/
def parseTry (n : Nat) : Parse Stmt := do
  let kw ← take
  let t ← tok 0
  if !t.is .lBrace then
    error t.loc "expected '\x7b' after try"
    return .tryS kw.loc [] []
  else
    let (_, body) ← parseBlock stmt n
    let t ← tok 0
    if !t.isIdent "catch" then
      error t.loc "expected catch after try block"
      return .tryS kw.loc body []
    else
      let _ ← take
      let t ← tok 0
      if !t.is .lBrace then
        error t.loc "expected '\x7b' after catch"
        return .tryS kw.loc body []
      else
        let (_, body2) ← parseBlock stmt n
        return .tryS kw.loc body body2

/-- The loop of `parseVarDeclStmt`. -/
def varDeclRest (loc : SrcLoc) (base : Ty) (isStatic : Bool) : Nat → List VarDeclarator → Parse Stmt
  | 0, _ => stuck
  | n + 1, decls => do
      match ← decl base true false with
      | none =>
          error (← tok 0).loc "expected variable name"
          skipToSemi
          return .varDecl loc decls isStatic
      | some d =>
          if ← accept .comma then varDeclRest loc base isStatic n (decls ++ [d])
          else
            let t ← tok 0
            if t.is .lParen then
              error t.loc ("nested function definitions are not allowed in HolyC " ++
                "(functions are top-level only)")
              skipBraceBlock
              return .varDecl loc (decls ++ [d]) isStatic
            else
              expect E .semi "after variable declaration"
              return .varDecl loc (decls ++ [d]) isStatic

/-- `parseVarDeclStmt`. -/
def parseVarDeclStmt (n : Nat) (isStatic : Bool) : Parse Stmt := do
  let first ← tok 0
  let base ← parseBaseTypeNoStars E
  varDeclRest E decl first.loc base isStatic n []

/-- A word that HolyC does not have, and what is skipped with it. -/
def refuse (msg : String) (skip : Parse Unit) : Parse Stmt := do
  let t ← take
  error t.loc msg
  skip
  return .empty t.loc

/-- `break`. -/
def parseBreak : Parse Stmt := do
  let b ← take
  expect E .semi "after break"
  return .breakS b.loc

/-- `goto`. -/
def parseGoto : Parse Stmt := do
  let g ← take
  let t ← tok 0
  if t.kind = .ident then
    let _ ← take
    expect E .semi "after goto"
    return .gotoS g.loc t.text
  else
    error t.loc "expected label after goto"
    expect E .semi "after goto"
    return .gotoS g.loc ""

/-- `return`. -/
def parseReturn : Parse Stmt := do
  let r ← take
  let e ← optionalExpr expr .semi
  expect E .semi "after return"
  return .returnS r.loc e

/-- `no_warn`: its expressions are parsed and dropped. -/
def parseNoWarn (n : Nat) : Parse Stmt := do
  let w ← take
  let _ ← optional .semi [] (parseExprList expr n)
  expect E .semi "after no_warn"
  return .noWarn w.loc

/-- `lock`. -/
def parseLock : Parse Stmt := do
  let l ← take
  return .lock l.loc (← stmt)

/-- A word and the colon behind it. -/
def takeLabel (mk : Token → Stmt) : Parse Stmt := do
  let t ← take
  let _ ← take
  return mk t

/-- `static` in a function body. -/
def parseStatic (n : Nat) : Parse Stmt := do
  let _ ← take
  parseVarDeclStmt E decl n true

/-- An expression statement. -/
def exprStmt : Parse Stmt := do
  let t ← tok 0
  let e ← expr
  expect E .semi "after expression"
  return .expr t.loc e

/-- The statements of `parseStmt` that begin with an identifier, which is `t`. -/
def identStmt (n : Nat) (t : Token) : Parse Stmt := do
  let colon ← is .colon 1
  if t.text = "if" then parseIf E expr stmt
  else if t.text = "while" then parseWhile E expr stmt
  else if t.text = "do" then parseDoWhile E expr stmt
  else if t.text = "for" then parseFor E expr stmt n
  else if t.text = "switch" then parseSwitch E expr stmt
  else if t.text = "break" then parseBreak E
  else if t.text = "continue" then
    refuse "there is no 'continue' stmt in HolyC -- use goto" do let _ ← accept .semi
  else if t.text = "typedef" then
    refuse "there is no 'typedef' in HolyC -- use class" skipToSemi
  else if t.text = "goto" then parseGoto E
  else if t.text = "return" then parseReturn E expr
  else if t.text = "case" then parseCase E expr
  else if t.text = "default" && colon then takeLabel fun t => .defaultS t.loc
  else if t.text = "start" && colon then takeLabel fun t => .subStart t.loc
  else if t.text = "end" && colon then takeLabel fun t => .subEnd t.loc
  else if t.text = "try" then parseTry stmt n
  else if t.text = "no_warn" then parseNoWarn E expr n
  else if t.text = "lock" then parseLock stmt
  else if t.text = "asm" then
    refuse "inline asm blocks are not supported by hcc" skipBraceBlock
  else if t.text = "class" || t.text = "union" then
    refuse "class definitions are only allowed at top level" skipToSemi
  else if colon && !isTypeName E t then takeLabel fun t => .labelS t.loc t.text
  else if isTypeName E t && (← startsDecl) then parseVarDeclStmt E decl n false
  else if t.text = "static" then parseStatic E decl n
  else exprStmt E expr

/-- `parseStmt`, with itself. -/
def stmtStep (n : Nat) : Parse Stmt := do
  let t ← tok 0
  if t.is .semi then
    let _ ← take
    return .empty t.loc
  else if t.is .lBrace then
    let (loc, body) ← parseBlock stmt n
    return .block loc body
  else if t.kind = .strLit then parsePrintStmt E expr n
  else if t.kind = .charLit then parsePutCharsStmt E expr
  else if t.kind = .ident then identStmt E expr decl stmt n t
  else exprStmt E expr

end Statements

/-- `parseStmt`. -/
def parseStmt (F : FileEnv) (E : ParseEnv) : Nat → Parse Stmt
  | 0 => stuck
  | n + 1 => stmtStep E (parseAssign E n) (parseDeclarator F E n) (parseStmt F E n) n

end Hlang.Parser
