import Hlang.Lexer.Macro
import Mathlib.Algebra.Group.Int.Defs

/-!
# Hlang.Lexer.CondEval — the expressions of `#if` and `#assert`

`CondEval` reads the tokens of the line with one function for each tier of
operators, as the parser does, and computes the value as it goes. At a macro it
starts again on the macro's body, with nothing that remembers which bodies it is
in: the nesting of macros is bounded by a number (`more`: it was too small). In
one list of tokens the functions come to an end, and the bound that `condEval`
gives them suffices.

A shift by a count outside 0..63 and an overflowing division have no defined
result in C++; what they leave is a parameter.
-/

namespace Hlang.Lexer

/-! ## Results -/

/-- How an evaluation ends, with the given depth of macros. -/
inductive Run (α : Type) where
  /-- the depth does not suffice -/
  | more
  /-- an operation without a defined result stopped the program -/
  | trap
  | done (a : α)

namespace Run

variable {α β : Type}

def bind (x : Run α) (f : α → Run β) : Run β :=
  match x with
  | more => more
  | trap => trap
  | done a => f a

def map (f : α → β) (x : Run α) : Run β := x.bind fun a => done (f a)

@[simp] theorem more_bind (f : α → Run β) : (more : Run α).bind f = more := rfl
@[simp] theorem trap_bind (f : α → Run β) : (trap : Run α).bind f = trap := rfl
@[simp] theorem done_bind (a : α) (f : α → Run β) : (done a).bind f = f a := rfl

@[simp] theorem map_done (f : α → β) (a : α) : (done a).map f = done (f a) := rfl

theorem bind_assoc {γ : Type} (x : Run α) (f : α → Run β) (g : β → Run γ) :
    (x.bind f).bind g = x.bind fun a => (f a).bind g := by
  cases x <;> rfl

/-- The one gives what the other gives, or the depth does not suffice for it. -/
def Le (x y : Run α) : Prop := x = more ∨ x = y

theorem Le.refl (x : Run α) : x.Le x := Or.inr rfl

theorem Le.trans {x y z : Run α} (h : x.Le y) (h' : y.Le z) : x.Le z := by
  rcases h with h | h
  · exact Or.inl h
  · rwa [h]

theorem Le.bind {x y : Run α} {f g : α → Run β} (h : x.Le y) (hfg : ∀ a, (f a).Le (g a)) :
    (x.bind f).Le (y.bind g) := by
  rcases h with h | h
  · exact Or.inl (by rw [h]; rfl)
  · rw [h]
    cases y with
    | more => exact Le.refl _
    | trap => exact Le.refl _
    | done a => exact hfg a

theorem Le.eq {x y : Run α} (h : x.Le y) (hx : x ≠ more) : y = x := by
  rcases h with h | h
  · exact absurd h hx
  · exact h.symm

end Run

/-- What `CondEval` reads from outside its tokens: the macros, and what operations without a
defined result leave (`none`: they stop the program). -/
structure CondEnv where
  macros : MacroTable
  undefinedOp : P → I64 → I64 → Option I64
  undefinedTrunc : ℚ → I64

/-- `(int64_t)fval`. -/
def CondEnv.trunc (E : CondEnv) (d : ℚ) : I64 :=
  let i := if 0 ≤ d then d.floor else d.ceil
  if -2 ^ 63 ≤ i ∧ i < 2 ^ 63 then BitVec.ofInt 64 i else E.undefinedTrunc d

/-! ## Operators -/

/-- The loop `while (e-- > 0) r *= v`, over the turns it makes. -/
def powTurns : Nat → I64 → I64 → I64
  | 0, r, _ => r
  | n + 1, r, v => powTurns n (r * v) v

/-- The value of a condition. -/
def truth (b : Bool) : I64 := if b then 1 else 0

/-- The operands of an operator for which C++ defines a result, once the code has looked at a
zero divisor. -/
def OpDefined (p : P) (v r : I64) : Prop :=
  match p with
  | .shl | .shr => r.toNat < 64
  | .slash | .percent => ¬ (v = BitVec.intMin 64 ∧ r = -1)
  | _ => True

instance (p : P) (v r : I64) : Decidable (OpDefined p v r) := by
  unfold OpDefined
  split <;> infer_instance

/-- The value of a binary operator, where it is defined. -/
def opValue (p : P) (v r : I64) : I64 :=
  match p with
  | .shl => v <<< (r &&& 63).toNat
  | .shr => v.sshiftRight (r &&& 63).toNat
  | .pow => powTurns r.toInt.toNat 1 v
  | .star => v * r
  | .slash => v.sdiv r
  | .percent => v.srem r
  | .amp => v &&& r
  | .caret => v ^^^ r
  | .pipe => v ||| r
  | .plus => v + r
  | .minus => v - r
  | .lt => truth (v.slt r)
  | .gt => truth (r.slt v)
  | .le => truth (v.sle r)
  | .ge => truth (r.sle v)
  | .eqEq => truth (v = r)
  | .ne => truth (v ≠ r)
  | .andAnd => truth (v ≠ 0 ∧ r ≠ 0)
  | .xorXor => truth ((v ≠ 0) ≠ (r ≠ 0))
  | .orOr => truth (v ≠ 0 ∨ r ≠ 0)
  | _ => v

/-- `tokIsInt`. -/
def tokIsInt (t : Token) : Bool := t.kind = .intLit || t.kind = .charLit

/-! ## `CondEval` -/

/-- The tokens from `t[i]` on, and `err`. -/
structure CondState where
  rest : List Token
  err : Bool := false

namespace CondState

/-- `eatP`. -/
def eatP (p : P) (s : CondState) : Option CondState :=
  match s.rest with
  | t :: ts => if t.is p then some { s with rest := ts } else none
  | [] => none

def fail (s : CondState) : CondState := { s with err := true }

/-- `if (!eatP(p)) err = true`. -/
def expect (p : P) (s : CondState) : CondState := (s.eatP p).getD s.fail

end CondState

namespace CondEval

variable (E : CondEnv)

/-- The operand of `defined`, in parentheses or not. -/
def definedName (paren : Bool) (s : CondState) : I64 × CondState :=
  match s.rest with
  | [] => (0, s.fail)
  | t :: ts =>
      if t.kind = .ident then
        let v := if (E.macros.find t.text).isSome then 1 else 0
        let s : CondState := { s with rest := ts }
        (v, if paren then s.expect .rParen else s)
      else (0, s.fail)

/-- `defined X` and `defined(X)`, after the `defined`. -/
def definedOp (s : CondState) : I64 × CondState :=
  match s.eatP .lParen with
  | some s => definedName E true s
  | none => definedName E false s

/-- `primary`. A macro is evaluated by `sub`, an evaluator of its own. -/
def primary (sub : List Token → Run (I64 × CondState))
    (expr : CondState → Run (I64 × CondState)) (s : CondState) : Run (I64 × CondState) :=
  match s.rest with
  | [] => .done (0, s.fail)
  | t :: ts =>
      let next : CondState := { s with rest := ts }
      if t.kind = .intLit || t.kind = .charLit then .done (t.ival, next)
      else if t.kind = .floatLit then .done (E.trunc t.fval, next)
      else if t.kind = .ident && t.text = "defined" then .done (definedOp E next)
      else if t.kind = .ident then
        match E.macros.find t.text with
        | some [b] =>
            if tokIsInt b then .done (b.ival, next) else (sub [b]).map fun r => (r.1, next)
        | some (b :: body) => (sub (b :: body)).map fun r => (r.1, next)
        | _ => .done (0, next)
      else
        match s.eatP .lParen with
        | some s => (expr s).map fun r => (r.1, r.2.expect .rParen)
        | none => .done (0, s.fail)

/-- `unary`. -/
def unary (operand : CondState → Run (I64 × CondState)) :
    Nat → CondState → Run (I64 × CondState)
  | 0, _ => .more
  | k + 1, s =>
      match s.eatP .minus with
      | some s => (unary operand k s).map fun r => (-r.1, r.2)
      | none =>
          match s.eatP .plus with
          | some s => unary operand k s
          | none =>
              match s.eatP .not with
              | some s => (unary operand k s).map fun r => (truth (r.1 = 0), r.2)
              | none =>
                  match s.eatP .tilde with
                  | some s => (unary operand k s).map fun r => (~~~r.1, r.2)
                  | none => operand s

/-- An operator on its operands. A zero divisor is an error; a shift gets its count as it is. -/
def apply (p : P) (v : I64) (r : I64 × CondState) : Run (I64 × CondState) :=
  if (p = .slash || p = .percent) && r.1 = 0 then .done (0, r.2.fail)
  else if OpDefined p v r.1 then .done (opValue p v r.1, r.2)
  else
    match E.undefinedOp p v r.1 with
    | some w => .done (w, r.2)
    | none => .trap

/-- The loop of a tier with the operators `ps`. -/
def tierLoop (ps : List P) (operand : CondState → Run (I64 × CondState)) :
    Nat → I64 → CondState → Run (I64 × CondState)
  | 0, _, _ => .more
  | k + 1, v, s =>
      match s.rest with
      | [] => .done (v, s)
      | t :: ts =>
          if t.kind = .punct ∧ t.punct ∈ ps then
            (operand { s with rest := ts }).bind fun r =>
              (apply E t.punct v r).bind fun r => tierLoop ps operand k r.1 r.2
          else .done (v, s)

/-- A tier: the operators `ps`, which associate to the left. -/
def tier (ps : List P) (operand : CondState → Run (I64 × CondState)) (k : Nat)
    (s : CondState) : Run (I64 × CondState) :=
  (operand s).bind fun r => tierLoop E ps operand k r.1 r.2

section Tiers

variable (sub : List Token → Run (I64 × CondState)) (paren : CondState → Run (I64 × CondState))
  (k : Nat)

def tier1 := tier E [.shl, .shr, .pow] (unary (primary E sub paren) k) k

def tier2 := tier E [.star, .slash, .percent] (tier1 E sub paren k) k

def tierAnd := tier E [.amp] (tier2 E sub paren k) k

def tierXor := tier E [.caret] (tierAnd E sub paren k) k

def tierOr := tier E [.pipe] (tierXor E sub paren k) k

def tierAdd := tier E [.plus, .minus] (tierOr E sub paren k) k

def tierRel := tier E [.lt, .gt, .le, .ge] (tierAdd E sub paren k) k

def tierEq := tier E [.eqEq, .ne] (tierRel E sub paren k) k

def tierLAnd := tier E [.andAnd] (tierEq E sub paren k) k

def tierLXor := tier E [.xorXor] (tierLAnd E sub paren k) k

def tierLOr := tier E [.orOr] (tierLXor E sub paren k) k

end Tiers

/-- `expr`, with a bound on what it reads. -/
def expr (sub : List Token → Run (I64 × CondState)) : Nat → CondState → Run (I64 × CondState)
  | 0, _ => .more
  | k + 1, s => tierLOr E sub (expr sub k) (k + 1) s

end CondEval

/-- `CondEval ev{ts, 0, …}` and `ev.expr()`, with macros in macros up to a depth. -/
def condEval (E : CondEnv) : Nat → List Token → Run (I64 × CondState)
  | 0, _ => .more
  | n + 1, ts => CondEval.expr E (condEval E n) (ts.length + 1) { rest := ts }

/-- `Lexer::evalCondExpr`: the value, and the errors that it reports. -/
def evalCondExpr (E : CondEnv) (n : Nat) (toks : List Token) (loc : SrcLoc) :
    Run (I64 × List (SrcLoc × String)) :=
  if toks = [] then .done (0, [(loc, "empty preprocessor expression")])
  else
    (condEval E n toks).map fun r =>
      (r.1, if r.2.err || !r.2.rest.isEmpty then [(loc, "bad preprocessor expression")] else [])

end Hlang.Lexer
