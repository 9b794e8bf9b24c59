import Hlang.Parser.CallArgs
import Hlang.Parser.Printed

/-!
# Hlang.Parser.Grammar — the grammar of expressions

`Spelled E (.expr k e) ts` says that the tokens `ts` are the expression `e`, written so that the
tier `k` of the parser takes it: the tiers are numbered from the operators that bind most tightly,
0 for the postfix ones, to 13 for the assignments. Parentheses may stand around any expression,
and must stand around one of a higher tier. What the parser decides by looking ahead is a side
condition here: a call is not written like a cast, and the operand of `sizeof` does not begin like
a type.
-/

namespace Hlang

/-! ## Expressions without their nodes -/

mutual

/-- The expression with all nodes forgotten. -/
def Expr.bare : Expr → Expr
  | .intLit _ v => .intLit {} v
  | .floatLit _ q => .floatLit {} q
  | .strLit _ s => .strLit {} s
  | .charLit _ v => .charLit {} v
  | .ident _ s => .ident {} s
  | .unary _ op pre e => .unary {} op pre e.bare
  | .binary _ op a b => .binary {} op a.bare b.bare
  | .chainCmp _ e es => .chainCmp {} e.bare (Expr.bareMore es)
  | .assign _ op a b => .assign {} op a.bare b.bare
  | .call _ f args => .call {} f.bare (Expr.bareSlots args)
  | .index _ b i => .index {} b.bare i.bare
  | .member _ b s arrow => .member {} b.bare s arrow
  | .cast _ e t => .cast {} e.bare t
  | .sizeofType _ t => .sizeofType {} t
  | .sizeofExpr _ e => .sizeofExpr {} e.bare
  | .offsetOf _ c m r => .offsetOf {} c m r
  | .lastClass _ => .lastClass {}
  | .initList _ es => .initList {} (Expr.bareKids es)

/-- `Expr.bare`, of the operands of a chained comparison. -/
def Expr.bareMore : List (P × Expr) → List (P × Expr)
  | [] => []
  | (op, e) :: es => (op, e.bare) :: Expr.bareMore es

/-- `Expr.bare`, of argument slots. -/
def Expr.bareSlots : List (Option Expr) → List (Option Expr)
  | [] => []
  | none :: args => none :: Expr.bareSlots args
  | some e :: args => some e.bare :: Expr.bareSlots args

/-- `Expr.bare`, of the elements of a list. -/
def Expr.bareKids : List Expr → List Expr
  | [] => []
  | e :: es => e.bare :: Expr.bareKids es

end

alias Expr.bare_unary := Expr.bare.eq_6

alias Expr.bare_binary := Expr.bare.eq_7

namespace Parser

open Lexer (eofToken)

/-! ## Tiers -/

/-- The operators that the tier `k` goes on with. -/
def tierOps : Nat → List P
  | 0 => postfixOps
  | 2 => [.pow, .shl, .shr]
  | 3 => [.star, .slash, .percent]
  | 4 => [.amp]
  | 5 => [.caret]
  | 6 => [.pipe]
  | 7 => [.plus, .minus]
  | 8 => [.lt, .gt, .le, .ge]
  | 9 => [.eqEq, .ne]
  | 10 => [.andAnd]
  | 11 => [.xorXor]
  | 12 => [.orOr]
  | 13 => assignOps ++ [.question]
  | _ => []

/-- The tiers that are loops over the tier below. -/
def LoopTier (k : Nat) : Prop := 2 ≤ k ∧ k ≤ 12 ∧ k ≠ 8

/-- What follows `(` looks like a type and `)`. -/
def castLike (E : ParseEnv) (ts : List Token) : Bool :=
  isTypeName E (ts.headD eofToken) &&
    ((ts.tail.drop (starCount ts.tail)).headD eofToken).is .rParen

/-- What `parsePrimary` treats in a way of its own. -/
def keywords : List String := ["sizeof", "offset", "lastclass"]

/-! ## The grammar -/

/-- What tokens can be: an expression of a tier, the comparisons behind the first operand, an
argument slot, argument slots, and the elements of an initialiser list. -/
inductive Form where
  | expr (k : Nat) (e : Expr)
  | more (es : List (P × Expr))
  | slot (arg : Option Expr)
  | slots (args : List (Option Expr))
  | kids (es : List Expr)

/-- The tokens are a form. -/
inductive Spelled (E : ParseEnv) : Form → List Token → Prop where
  -- primary expressions
  | intLit {t : Token} (n : Node) (h : t.kind = .intLit) : Spelled E (.expr 0 (.intLit n t.ival)) [t]
  | floatLit {t : Token} (n : Node) (h : t.kind = .floatLit) :
      Spelled E (.expr 0 (.floatLit n t.fval)) [t]
  | charLit {t : Token} (n : Node) (h : t.kind = .charLit) :
      Spelled E (.expr 0 (.charLit n t.ival)) [t]
  | strLit {t : Token} {ts : List Token} (n : Node) (h : ∀ u ∈ t :: ts, u.kind = .strLit) :
      Spelled E (.expr 0 (.strLit n (ts.foldl (fun s u => s ++ u.text) t.text))) (t :: ts)
  | ident {t : Token} (n : Node) (h : t.kind = .ident) (hkey : t.text ∉ keywords) :
      Spelled E (.expr 0 (.ident n t.text)) [t]
  | lastClass {t : Token} (n : Node) (h : t.isIdent "lastclass" = true) :
      Spelled E (.expr 0 (.lastClass n)) [t]
  | paren {l r : Token} {e : Expr} {ts : List Token} (hl : l.is .lParen = true)
      (hr : r.is .rParen = true) (h : Spelled E (.expr 13 e) ts) :
      Spelled E (.expr 0 e) (l :: (ts ++ [r]))
  | initNil {l r : Token} (n : Node) (hl : l.is .lBrace = true) (hr : r.is .rBrace = true) :
      Spelled E (.expr 0 (.initList n [])) [l, r]
  | initList {l r : Token} {es : List Expr} {ts : List Token} (n : Node) (hl : l.is .lBrace = true)
      (hr : r.is .rBrace = true) (h : Spelled E (.kids es) ts) :
      Spelled E (.expr 0 (.initList n es)) (l :: (ts ++ [r]))
  | sizeofType {kw l t r : Token} {ss : List Token} {ty : Ty} (n : Node)
      (hkw : kw.isIdent "sizeof" = true) (hl : l.is .lParen = true)
      (ht : isTypeName E t = true ∨ (E.prog.classes t.text).isSome = true)
      (hty : E.prog.baseTypeFor t.text = some ty) (hss : ∀ u ∈ ss, u.is .star = true)
      (hr : r.is .rParen = true) :
      Spelled E (.expr 0 (.sizeofType n (stars ss.length ty))) (kw :: l :: t :: (ss ++ [r]))
  | sizeofMember {kw l c d t r : Token} {i : ClassId} {fuel : Nat} {m : ClassMember} (n : Node)
      (hkw : kw.isIdent "sizeof" = true) (hl : l.is .lParen = true)
      (hc : E.prog.classes c.text = some i) (hd : d.is .dot = true) (ht : t.kind = .ident)
      (hm : findMember E.prog.heap fuel i t.text = some (some m)) (hr : r.is .rParen = true) :
      Spelled E (.expr 0 (.sizeofType n m.type)) [kw, l, c, d, t, r]
  | sizeofExpr {kw l t r : Token} {ts : List Token} {e : Expr} (n : Node)
      (hkw : kw.isIdent "sizeof" = true) (hl : l.is .lParen = true)
      (ht : isTypeName E t = false) (hclass : E.prog.classes t.text = none)
      (h : Spelled E (.expr 13 e) (t :: ts)) (hr : r.is .rParen = true) :
      Spelled E (.expr 0 (.sizeofExpr n e)) (kw :: l :: t :: (ts ++ [r]))
  | offsetOf {kw l c d t r : Token} (n : Node) (hkw : kw.isIdent "offset" = true)
      (hl : l.is .lParen = true) (hc : c.kind = .ident) (hd : d.is .dot = true)
      (ht : t.kind = .ident) (hr : r.is .rParen = true) :
      Spelled E (.expr 0 (.offsetOf n c.text t.text (E.prog.classes c.text))) [kw, l, c, d, t, r]
  -- postfix operators
  | cast {l t r : Token} {e : Expr} {ts ss : List Token} {ty : Ty} (n : Node)
      (h : Spelled E (.expr 0 e) ts) (hl : l.is .lParen = true) (ht : t.kind = .ident)
      (hty : E.prog.baseTypeFor t.text = some ty) (hss : ∀ u ∈ ss, u.is .star = true)
      (hr : r.is .rParen = true) :
      Spelled E (.expr 0 (.cast n e (stars ss.length ty))) (ts ++ l :: t :: (ss ++ [r]))
  | call {l r : Token} {f : Expr} {args : List (Option Expr)} {ts us : List Token} (n : Node)
      (h : Spelled E (.expr 0 f) ts) (hl : l.is .lParen = true) (hargs : Spelled E (.slots args) us)
      (hr : r.is .rParen = true) (hcast : castLike E (us ++ [r]) = false) :
      Spelled E (.expr 0 (.call n f (slotArgs args))) (ts ++ l :: (us ++ [r]))
  | index {l r : Token} {b i : Expr} {ts us : List Token} (n : Node)
      (hb : Spelled E (.expr 0 b) ts) (hl : l.is .lBracket = true) (hi : Spelled E (.expr 13 i) us)
      (hr : r.is .rBracket = true) : Spelled E (.expr 0 (.index n b i)) (ts ++ l :: (us ++ [r]))
  | member {op t : Token} {b : Expr} {ts : List Token} (n : Node) (hb : Spelled E (.expr 0 b) ts)
      (hop : (op.is .dot || op.is .arrow) = true) (ht : t.kind = .ident) :
      Spelled E (.expr 0 (.member n b t.text (op.punct = .arrow))) (ts ++ [op, t])
  | post {op : Token} {e : Expr} {ts : List Token} (n : Node) (h : Spelled E (.expr 0 e) ts)
      (hop : (op.is .plusPlus || op.is .minusMinus) = true) :
      Spelled E (.expr 0 (.unary n op.punct false e)) (ts ++ [op])
  -- the tiers
  | pre {op : Token} {e : Expr} {ts : List Token} (n : Node)
      (hop : op.kind = .punct ∧ op.punct ∈ unaryOps) (h : Spelled E (.expr 1 e) ts) :
      Spelled E (.expr 1 (.unary n op.punct true e)) (op :: ts)
  | binary {k : Nat} {op : Token} {a b : Expr} {ts us : List Token} (n : Node)
      (hk : LoopTier (k + 1)) (ha : Spelled E (.expr (k + 1) a) ts)
      (hop : op.kind = .punct ∧ op.punct ∈ tierOps (k + 1)) (hb : Spelled E (.expr k b) us) :
      Spelled E (.expr (k + 1) (.binary n op.punct a b)) (ts ++ op :: us)
  | chainCmp {e : Expr} {es : List (P × Expr)} {ts us : List Token} (n : Node)
      (h : Spelled E (.expr 7 e) ts) (hes : Spelled E (.more es) us) :
      Spelled E (.expr 8 (.chainCmp n e es)) (ts ++ us)
  | assign {op : Token} {a b : Expr} {ts us : List Token} (n : Node)
      (ha : Spelled E (.expr 12 a) ts) (hop : op.kind = .punct ∧ op.punct ∈ assignOps)
      (hb : Spelled E (.expr 13 b) us) :
      Spelled E (.expr 13 (.assign n op.punct a b)) (ts ++ op :: us)
  | lift {k : Nat} {e : Expr} {ts : List Token} (hk : k < 13) (h : Spelled E (.expr k e) ts) :
      Spelled E (.expr (k + 1) e) ts
  -- lists
  | moreLast {op : Token} {e : Expr} {ts : List Token} (hop : isRelOp op = true)
      (h : Spelled E (.expr 7 e) ts) : Spelled E (.more [(op.punct, e)]) (op :: ts)
  | moreCons {op : Token} {e : Expr} {es : List (P × Expr)} {ts us : List Token}
      (hop : isRelOp op = true) (h : Spelled E (.expr 7 e) ts) (hes : Spelled E (.more es) us) :
      Spelled E (.more ((op.punct, e) :: es)) (op :: (ts ++ us))
  | skipped : Spelled E (.slot none) []
  | filled {e : Expr} {ts : List Token} (h : Spelled E (.expr 13 e) ts) :
      Spelled E (.slot (some e)) ts
  | slotsLast {arg : Option Expr} {ts : List Token} (h : Spelled E (.slot arg) ts) :
      Spelled E (.slots [arg]) ts
  | slotsCons {c : Token} {arg : Option Expr} {args : List (Option Expr)} {ts us : List Token}
      (h : Spelled E (.slot arg) ts) (hc : c.is .comma = true) (hargs : Spelled E (.slots args) us) :
      Spelled E (.slots (arg :: args)) (ts ++ c :: us)
  | kidsLast {e : Expr} {ts : List Token} (h : Spelled E (.expr 13 e) ts) : Spelled E (.kids [e]) ts
  | kidsComma {c : Token} {e : Expr} {ts : List Token} (h : Spelled E (.expr 13 e) ts)
      (hc : c.is .comma = true) : Spelled E (.kids [e]) (ts ++ [c])
  | kidsCons {c : Token} {e : Expr} {es : List Expr} {ts us : List Token}
      (h : Spelled E (.expr 13 e) ts) (hc : c.is .comma = true) (hes : Spelled E (.kids es) us) :
      Spelled E (.kids (e :: es)) (ts ++ c :: us)

/-- An expression of a tier is one of every higher tier. -/
theorem Spelled.lift_le {E : ParseEnv} {e : Expr} {ts : List Token} {j k : Nat} (hk : k ≤ 13) (hj : j ≤ k) (h : Spelled E (.expr j e) ts) :
    Spelled E (.expr k e) ts := by
  induction k with
  | zero =>
      rcases Nat.le_zero.mp hj with rfl
      exact h
  | succ k ih =>
      rcases Nat.lt_or_ge k j with hlt | hge
      · have heq : j = k + 1 := Nat.le_antisymm hj hlt
        exact heq ▸ h
      · exact .lift hk (ih (Nat.le_of_succ_le hk) hge)

end Parser

end Hlang
