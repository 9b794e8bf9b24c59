import Mathlib.Data.Rat.Init

/-!
# Hlang.Token — tokens of the HolyC lexer

The data every stage of the front end passes around: punctuators, token kinds,
source positions and the token record itself. A 64-bit integer is a
`BitVec 64`, an `F64` value is read as an exact rational, and a `std::string`
is a `String` whose characters are the bytes of the C++ string.
-/

namespace Hlang

/-- A 64-bit machine integer (`int64_t` and `uint64_t` share the bits). -/
abbrev I64 := BitVec 64

/-- Token kinds. -/
inductive Tok where
  | eof
  | ident
  | intLit
  | floatLit
  | strLit
  | charLit
  | punct
deriving DecidableEq, Repr

/-- Punctuators and operators. -/
inductive P where
  | none
  | lParen | rParen | lBracket | rBracket | lBrace | rBrace
  | comma | semi | colon | colonColon | dot | ellipsis | arrow
  | plus | minus | star | slash | percent | pow
  | amp | pipe | caret | shl | shr | tilde | not
  | andAnd | orOr | xorXor
  | lt | gt | le | ge | eqEq | ne
  | assign | plusEq | minusEq | starEq | slashEq | percentEq
  | shlEq | shrEq | ampEq | pipeEq | caretEq
  | plusPlus | minusMinus
  | dollar | at | question
deriving DecidableEq, Repr

/-- A source position. -/
structure SrcLoc where
  file : String := ""
  line : Nat := 0
  col : Nat := 0
deriving DecidableEq, Repr

/-- A token: `text` is the identifier name, the decoded bytes of a string or
the raw characters of a character constant; `ival` and `fval` are the values of
numeric literals; `noExpand` is the macro recursion guard. -/
structure Token where
  kind : Tok := .eof
  punct : P := .none
  text : String := ""
  ival : I64 := 0
  fval : ℚ := 0
  loc : SrcLoc := {}
  noExpand : Bool := false
deriving DecidableEq

namespace Token

/-- `Token::is`: the token is the punctuator `p`. -/
def is (t : Token) (p : P) : Bool := t.kind = .punct && t.punct = p

/-- `Token::isIdent`: the token is the identifier `s`. -/
def isIdent (t : Token) (s : String) : Bool := t.kind = .ident && t.text = s

/-- What a token says, without where it stands and without its guard flag. -/
def shape (t : Token) : Token := { t with loc := {}, noExpand := false }

/-- The identifier `n`, as `lexToken` builds it. -/
def ofIdent (n : String) : Token := { kind := .ident, text := n }

/-- The integer literal `v`, as `lexNumber` builds it. -/
def ofInt (v : I64) : Token := { kind := .intLit, ival := v }

/-- The punctuator `p`, as `lexToken` builds it. -/
def ofPunct (p : P) : Token := { kind := .punct, punct := p }

end Token

end Hlang
