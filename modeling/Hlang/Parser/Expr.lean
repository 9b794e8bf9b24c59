import Hlang.Lexer.Spelling
import Hlang.Parser.ClassDef

/-!
# Hlang.Parser.Expr — expressions

`Parser::Impl::parseExpr` and what it calls, over the tokens that `Lexer::next`
still has to return. The tiers of binary operators are loops over one another
around `parseUnary`; the functions that call each other are bounded by a number,
as is every loop (`none`: it was too small).
-/

namespace Hlang.Parser

open Lexer (eofToken punctStr)

/-! ## Reading tokens -/

/-- What the parser reads from outside the tokens: the classes declared so far, and the text
that `std::to_string` gives for a double. -/
structure ParseEnv where
  prog : Program := {}
  showFloat : ℚ → String := fun _ => ""

/-- The parser: the tokens before the endless `Eof`, its errors, and the address of the
next node. -/
structure PState where
  toks : List Token
  errors : List (SrcLoc × String) := []
  next : Nat := 0

abbrev Parse := StateT PState Option

/-- `tok`. -/
def tok (k : Nat) : Parse Token := fun s => some ((s.toks.drop k).headD eofToken, s)

/-- `take`. -/
def take : Parse Token := fun s => some (s.toks.headD eofToken, { s with toks := s.toks.tail })

/-- `is`. -/
def is (p : P) (k : Nat) : Parse Bool := do return (← tok k).is p

/-- `error`. -/
def error (loc : SrcLoc) (msg : String) : Parse Unit :=
  fun s => some ((), { s with errors := s.errors ++ [(loc, msg)] })

/-- `mkE`: a new node. -/
def mkE (loc : SrcLoc) : Parse Node := fun s => some (⟨loc, s.next⟩, { s with next := s.next + 1 })

/-- A bound was too small. -/
def stuck {α : Type} : Parse α := fun _ => none

/-- `accept`. -/
def accept (p : P) : Parse Bool := do
  if ← is p 0 then
    let _ ← take
    return true
  else return false

/-- `describe`. -/
def ParseEnv.describe (E : ParseEnv) (t : Token) : String :=
  match t.kind with
  | .eof => "<eof>"
  | .ident => t.text
  | .intLit => toString t.ival.toInt
  | .floatLit => E.showFloat t.fval
  | .strLit => "\"" ++ t.text ++ "\""
  | .charLit => "'" ++ t.text ++ "'"
  | .punct => punctStr t.punct

/-- `expect`. -/
def expect (E : ParseEnv) (p : P) (what : String) : Parse Unit := do
  if ← accept p then return ()
  else
    let t ← tok 0
    error t.loc ("expected '" ++ punctStr p ++ "' " ++ what ++ " (got '" ++ E.describe t ++ "')")
    if t.kind = .eof then return ()
    else
      let _ ← take
      return ()

/-! ## Types -/

section Types

variable (E : ParseEnv)

/-- `isTypeName`. -/
def isTypeName (t : Token) : Bool :=
  t.kind = .ident && (E.prog.baseTypeFor t.text).isSome

/-- The number of stars at the front. -/
def starCount (ts : List Token) : Nat := (ts.takeWhile (·.is .star)).length

/-- `parseBaseType`. -/
def parseBaseType : Parse Ty := do
  let t ← take
  let ty ← match E.prog.baseTypeFor t.text with
    | some ty => pure ty
    | none => do
        error t.loc ("unknown type '" ++ t.text ++ "'")
        pure Ty.i64
  let n := starCount (← get).toks
  modify fun s => { s with toks := s.toks.drop n }
  return stars n ty

/-- `looksLikeCast`. -/
def looksLikeCast : Parse Bool := fun s =>
  let rest := s.toks.drop 2
  some ((s.toks.headD eofToken).is .lParen && isTypeName E ((s.toks.drop 1).headD eofToken) &&
    ((rest.drop (starCount rest)).headD eofToken).is .rParen, s)

end Types

/-! ## Binary operators -/

/-- The loop of `binaryLoop` after its left operand. -/
def binaryRest (sub : Parse Expr) (ops : List P) : Nat → Expr → Parse Expr
  | 0, _ => stuck
  | n + 1, lhs => do
      let t ← tok 0
      if t.kind = .punct ∧ t.punct ∈ ops then
        let op ← take
        let rhs ← sub
        let node ← mkE op.loc
        binaryRest sub ops n (.binary node op.punct lhs rhs)
      else return lhs

/-- `binaryLoop`. -/
def binaryLoop (n : Nat) (sub : Parse Expr) (ops : List P) : Parse Expr := do
  binaryRest sub ops n (← sub)

/-- The operators of a chained comparison. -/
def isRelOp (t : Token) : Bool := t.is .lt || t.is .gt || t.is .le || t.is .ge

/-- The loop of `parseRel`. -/
def relRest (sub : Parse Expr) : Nat → List (P × Expr) → Parse (List (P × Expr))
  | 0, _ => stuck
  | n + 1, rest => do
      let t ← tok 0
      if isRelOp t then
        let op ← take
        let kid ← sub
        relRest sub n (rest ++ [(op.punct, kid)])
      else return rest

section Tiers

variable (n : Nat) (unary : Parse Expr)

def parsePow : Parse Expr := binaryLoop n unary [.pow, .shl, .shr]
def parseMul : Parse Expr := binaryLoop n (parsePow n unary) [.star, .slash, .percent]
def parseBand : Parse Expr := binaryLoop n (parseMul n unary) [.amp]
def parseBxor : Parse Expr := binaryLoop n (parseBand n unary) [.caret]
def parseBor : Parse Expr := binaryLoop n (parseBxor n unary) [.pipe]
def parseAdd : Parse Expr := binaryLoop n (parseBor n unary) [.plus, .minus]

/-- `parseRel`: `5<i<j` is one node. -/
def parseRel : Parse Expr := do
  let first ← parseAdd n unary
  let t ← tok 0
  if isRelOp t then
    let node ← mkE t.loc
    return .chainCmp node first (← relRest (parseAdd n unary) n [])
  else return first

def parseEq : Parse Expr := binaryLoop n (parseRel n unary) [.eqEq, .ne]
def parseLand : Parse Expr := binaryLoop n (parseEq n unary) [.andAnd]
def parseLxor : Parse Expr := binaryLoop n (parseLand n unary) [.xorXor]
def parseLor : Parse Expr := binaryLoop n (parseLxor n unary) [.orOr]

end Tiers

/-- The operators of `parseAssign`. -/
def assignOps : List P :=
  [.assign, .plusEq, .minusEq, .starEq, .slashEq, .percentEq, .shlEq, .shrEq, .ampEq, .pipeEq,
    .caretEq]

/-- The operators of `parseUnary`. -/
def unaryOps : List P := [.not, .tilde, .minus, .plus, .star, .amp, .plusPlus, .minusMinus]

/-! ## The functions that call each other -/

section Steps

variable (E : ParseEnv) (expr : Parse Expr)

/-- `parseAssign`, with its left operand and itself. -/
def assignStep (lor : Parse Expr) : Parse Expr := do
  let lhs ← lor
  let t ← tok 0
  if t.kind = .punct ∧ t.punct ∈ assignOps then
    let op ← take
    let rhs ← expr
    let node ← mkE op.loc
    return .assign node op.punct lhs rhs
  else if t.is .question then
    error t.loc "there is no question-colon operator in HolyC -- use if/else"
    let _ ← take
    let _ ← expr
    if ← accept .colon then
      let _ ← expr
      return lhs
    else return lhs
  else return lhs

/-- `parseUnary`, with itself and `parsePostfix`. -/
def unaryStep (unary postfixed : Parse Expr) : Parse Expr := do
  let t ← tok 0
  if t.kind = .punct ∧ t.punct ∈ unaryOps then
    let op ← take
    let node ← mkE op.loc
    return .unary node op.punct true (← unary)
  else postfixed

/-- The loop of `parseCallArgs`, after the opening parenthesis. -/
def callArgsRest : Nat → List (Option Expr) → Parse (List (Option Expr))
  | 0, _ => stuck
  | n + 1, args => do
      let t ← tok 0
      let arg ← if t.is .comma || t.is .rParen then pure none else do pure (some (← expr))
      if ← accept .comma then callArgsRest n (args ++ [arg])
      else
        expect E .rParen "after call arguments"
        return args ++ [arg]

/-- `parseCallArgs`. -/
def parseCallArgs (n : Nat) : Parse (List (Option Expr)) := do
  if ← accept .rParen then return [] else callArgsRest E expr n []

/-- The loop of `parsePostfix`. -/
def postfixRest : Nat → Expr → Parse Expr
  | 0, _ => stuck
  | n + 1, e => do
      let t ← tok 0
      if ← looksLikeCast E then
        let lp ← take
        let ty ← parseBaseType E
        expect E .rParen "after cast type"
        postfixRest n (.cast (← mkE lp.loc) e ty)
      else if t.is .lParen then
        let lp ← take
        let node ← mkE lp.loc
        let args ← parseCallArgs E expr n
        postfixRest n (.call node e args)
      else if t.is .lBracket then
        let lb ← take
        let node ← mkE lb.loc
        let idx ← expr
        expect E .rBracket "after index"
        postfixRest n (.index node e idx)
      else if t.is .dot || t.is .arrow then
        let op ← take
        let name ← tok 0
        if name.kind ≠ .ident then
          error name.loc "expected member name"
          return e
        else
          let _ ← take
          let node ← mkE op.loc
          postfixRest n (.member node e name.text (op.punct = .arrow))
      else if t.is .plusPlus || t.is .minusMinus then
        let op ← take
        let node ← mkE op.loc
        postfixRest n (.unary node op.punct false e)
      else return e

/-- The adjacent literals of a string. -/
def adjacent : Nat → String → Parse String
  | 0, _ => stuck
  | n + 1, text => do
      if (← tok 0).kind = .strLit then
        let t ← take
        adjacent n (text ++ t.text)
      else return text

/-- The loop of `parseInitList`. -/
def initListRest : Nat → List Expr → Parse (List Expr)
  | 0, _ => stuck
  | n + 1, kids => do
      let kid ← expr
      if ← accept .comma then
        if ← is .rBrace 0 then return kids ++ [kid] else initListRest n (kids ++ [kid])
      else return kids ++ [kid]

/-- `parseInitList`. -/
def parseInitList (n : Nat) : Parse Expr := do
  let lb ← take
  let node ← mkE lb.loc
  if ← accept .rBrace then return .initList node []
  else
    let kids ← initListRest expr n []
    expect E .rBrace "after initializer list"
    return .initList node kids

/-- The type of `sizeof(class.member)`, after the class name. -/
def sizeofMember (fuel : Nat) (loc : SrcLoc) (cname : String) : Parse Ty := do
  let _ ← take
  let _ ← take
  let t ← tok 0
  if t.kind ≠ .ident then
    error t.loc "expected member name in sizeof"
    return Ty.i64
  else
    let _ ← take
    match (E.prog.classes cname).map fun c => findMember E.prog.heap fuel c t.text with
    | some (some (some m)) => return m.type
    | some (some none) => do
        error loc ("no member '" ++ t.text ++ "' in class '" ++ cname ++ "'")
        return Ty.i64
    | _ => stuck

/-- The operand of `sizeof`. -/
def sizeofOperand (n : Nat) (loc : SrcLoc) : Parse Expr := do
  let t ← tok 0
  let isClass := (E.prog.classes t.text).isSome
  if isTypeName E t && !isClass then
    let node ← mkE loc
    return .sizeofType node (← parseBaseType E)
  else if isClass then
    let node ← mkE loc
    if ← is .dot 1 then return .sizeofType node (← sizeofMember E n loc t.text)
    else return .sizeofType node (← parseBaseType E)
  else
    let node ← mkE loc
    return .sizeofExpr node (← expr)

/-- `parseSizeof`. -/
def parseSizeof (n : Nat) : Parse Expr := do
  let kw ← take
  expect E .lParen "after sizeof"
  let e ← sizeofOperand E expr n kw.loc
  expect E .rParen "after sizeof"
  return e

/-- The operand of `offset`: the class name, with the class it names then, and the member
name. -/
def offsetOperand : Parse (String × Option ClassId × String) := do
  let t ← tok 0
  if t.kind ≠ .ident then
    error t.loc "offset(classname.membername) expected"
    return ("", none, "")
  else
    let _ ← take
    expect E .dot "in offset(classname.membername)"
    let m ← tok 0
    if m.kind = .ident then
      let _ ← take
      return (t.text, E.prog.classes t.text, m.text)
    else
      error m.loc "expected member name in offset()"
      return (t.text, E.prog.classes t.text, "")

/-- `parseOffset`. -/
def parseOffset : Parse Expr := do
  let kw ← take
  expect E .lParen "after offset"
  let node ← mkE kw.loc
  let (className, classRef, memberName) ← offsetOperand E
  expect E .rParen "after offset()"
  return .offsetOf node className memberName classRef

/-- The end of `parsePrimary`: there is no expression. -/
def noExpr (t : Token) : Parse Expr := do
  error t.loc ("expected expression (got '" ++ E.describe t ++ "')")
  if t.kind = .eof then return .intLit (← mkE t.loc) 0
  else
    let _ ← take
    return .intLit (← mkE t.loc) 0

/-- `parsePrimary`. -/
def primaryStep (n : Nat) : Parse Expr := do
  let t ← tok 0
  match t.kind with
  | .intLit => do
      let _ ← take
      return .intLit (← mkE t.loc) t.ival
  | .floatLit => do
      let _ ← take
      return .floatLit (← mkE t.loc) t.fval
  | .charLit => do
      let _ ← take
      return .charLit (← mkE t.loc) t.ival
  | .strLit => do
      let _ ← take
      let node ← mkE t.loc
      return .strLit node (← adjacent n t.text)
  | .ident =>
      if t.text = "sizeof" then parseSizeof E expr n
      else if t.text = "offset" then parseOffset E
      else if t.text = "lastclass" then do
        let _ ← take
        return .lastClass (← mkE t.loc)
      else do
        let _ ← take
        return .ident (← mkE t.loc) t.text
  | .punct =>
      if t.punct = .lParen then do
        let _ ← take
        let e ← expr
        expect E .rParen "after parenthesized expression"
        return e
      else if t.punct = .lBrace then parseInitList E expr n
      else if t.punct = .dollar then do
        let _ ← take
        error t.loc "'$' (instruction address) is not supported by hcc"
        return .intLit (← mkE t.loc) 0
      else noExpr E t
  | .eof => noExpr E t

/-- `parsePostfix`. -/
def postfixStep (n : Nat) : Parse Expr := do
  postfixRest E expr n (← primaryStep E expr n)

end Steps

mutual

/-- `parseAssign`. -/
def parseAssign (E : ParseEnv) : Nat → Parse Expr
  | 0 => stuck
  | n + 1 => assignStep (parseAssign E n) (parseLor n (parseUnary E n))

/-- `parseUnary`. -/
def parseUnary (E : ParseEnv) : Nat → Parse Expr
  | 0 => stuck
  | n + 1 => unaryStep (parseUnary E n) (postfixStep E (parseAssign E n) n)

end

/-- `parseExpr`. -/
def parseExpr (E : ParseEnv) (n : Nat) : Parse Expr := parseAssign E n

end Hlang.Parser
