import Hlang.Ast

/-!
# Hlang.Stmt — statements
-/

namespace Hlang

/-- `VarDeclarator`. -/
structure VarDeclarator where
  name : String
  type : Ty
  init : Option Expr := none
  loc : SrcLoc := {}

/-- `Stmt`, one constructor for each `St` kind with the fields that kind uses. -/
inductive Stmt where
  | block (loc : SrcLoc) (body : List Stmt)
  | expr (loc : SrcLoc) (expr : Expr)
  /-- `body2` is the else branch -/
  | ifS (loc : SrcLoc) (expr : Expr) (body : Stmt) (body2 : Option Stmt)
  | whileS (loc : SrcLoc) (expr : Expr) (body : Stmt)
  | doWhile (loc : SrcLoc) (expr : Expr) (body : Stmt)
  /-- the statements of `body2` that the parser makes of the post expressions are
  expression statements -/
  | forS (loc : SrcLoc) (exprs : List Expr) (expr2 : Option Expr) (body2 : List Expr) (body : Stmt)
  | switchS (loc : SrcLoc) (expr : Expr) (body : Stmt)
  /-- `none` where `hasCaseVal` or `hasHi` is not set -/
  | caseS (loc : SrcLoc) (caseLo : Option (Expr × Option Expr))
  | defaultS (loc : SrcLoc)
  | subStart (loc : SrcLoc)
  | subEnd (loc : SrcLoc)
  | breakS (loc : SrcLoc)
  | gotoS (loc : SrcLoc) (label : String)
  | labelS (loc : SrcLoc) (label : String)
  | returnS (loc : SrcLoc) (expr : Option Expr)
  | varDecl (loc : SrcLoc) (decls : List VarDeclarator) (isStatic : Bool)
  | tryS (loc : SrcLoc) (body body2 : List Stmt)
  | noWarn (loc : SrcLoc)
  | lock (loc : SrcLoc) (body : Stmt)
  | empty (loc : SrcLoc)

end Hlang
