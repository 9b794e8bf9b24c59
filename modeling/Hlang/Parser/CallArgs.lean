import Hlang.Parser.Expr

/-!
# Hlang.Parser.CallArgs — argument lists with skipped slots

An argument list is a sequence of slots between commas, up to a closing parenthesis. A slot
holds an expression or is skipped. `parseCallArgs` gives the slots in order, where the list
of one skipped slot, `()`, is the empty one.
-/

namespace Hlang.Parser

open Lexer (eofToken)

/-- The next token. -/
def PState.head (s : PState) : Token := s.toks.headD eofToken

/-- The state behind the next token. -/
def PState.tail (s : PState) : PState := { s with toks := s.toks.tail }

/-- A slot is read, by `expr` where an expression is written. -/
inductive Slot (expr : Parse Expr) : PState → Option Expr → PState → Prop where
  | skipped {s : PState} (h : (s.head.is .comma || s.head.is .rParen) = true) : Slot expr s none s
  | filled {s s' : PState} {e : Expr} (h : (s.head.is .comma || s.head.is .rParen) = false)
      (he : expr s = some (e, s')) : Slot expr s (some e) s'

/-- The slots up to the closing parenthesis. -/
inductive Slots (expr : Parse Expr) : PState → List (Option Expr) → PState → Prop where
  | last {s s' : PState} {arg : Option Expr} (h : Slot expr s arg s')
      (hend : s'.head.is .rParen = true) : Slots expr s [arg] s'.tail
  | cons {s s₁ s' : PState} {arg : Option Expr} {args : List (Option Expr)}
      (h : Slot expr s arg s₁) (hcomma : s₁.head.is .comma = true)
      (hrest : Slots expr s₁.tail args s') : Slots expr s (arg :: args) s'

/-- The arguments that the slots stand for. -/
def slotArgs : List (Option Expr) → List (Option Expr)
  | [none] => []
  | args => args

section Parse

variable {expr : Parse Expr} {s s' s₁ : PState} {arg : Option Expr} {args : List (Option Expr)}

theorem parse_bind_some {α β : Type} {x : Parse α} {f : α → Parse β} {a : α} (h : x s = some (a, s')) :
    (x >>= f) s = f a s' := by
  change (x s).bind _ = _
  rw [h]
  rfl

theorem tok_zero (s : PState) : tok 0 s = some (s.head, s) := rfl

theorem accept_true {p : P} (h : s.head.is p = true) : accept p s = some (true, s.tail) := by
  have his : is p 0 s = some (true, s) := by
    rw [← h]
    rfl
  unfold accept
  rw [parse_bind_some his]
  rfl

theorem accept_false {p : P} (h : s.head.is p = false) : accept p s = some (false, s) := by
  have his : is p 0 s = some (false, s) := by
    rw [← h]
    rfl
  unfold accept
  rw [parse_bind_some his]
  rfl

theorem not_comma {t : Token} (h : t.is .rParen = true) : t.is .comma = false := by
  unfold Token.is at h ⊢
  rw [Bool.and_eq_true, decide_eq_true_eq, decide_eq_true_eq] at h
  rw [h.2]
  exact Bool.and_false _

/-- One turn of the loop reads one slot. -/
theorem callArgsRest_slot (E : ParseEnv) (h : Slot expr s arg s₁) (n : Nat)
    (acc : List (Option Expr)) : callArgsRest E expr (n + 1) acc s = (do
      if ← accept .comma then callArgsRest E expr n (acc ++ [arg])
      else
        expect E .rParen "after call arguments"
        return acc ++ [arg]) s₁ := by
  rw [callArgsRest, parse_bind_some (tok_zero s)]
  cases h with
  | skipped h =>
      rw [if_pos h]
      rfl
  | filled h he =>
      rw [h, if_neg Bool.false_ne_true, parse_bind_some he]
      rfl

/-- The loop reads the slots in order. -/
theorem callArgsRest_slots (E : ParseEnv) (h : Slots expr s args s') : ∀ (n : Nat)
    (acc : List (Option Expr)), args.length ≤ n →
      callArgsRest E expr n acc s = some (acc ++ args, s') := by
  induction h with
  | @last s s' arg h hend =>
      intro n acc hn
      rcases Nat.exists_eq_succ_of_ne_zero (Nat.ne_of_gt hn) with ⟨n, rfl⟩
      rw [callArgsRest_slot E h, parse_bind_some (accept_false (not_comma hend))]
      have hexpect : expect E .rParen "after call arguments" s' = some ((), s'.tail) := by
        unfold expect
        rw [parse_bind_some (accept_true hend)]
        rfl
      exact parse_bind_some hexpect
  | @cons s s₁ s' arg args h hcomma hrest ih =>
      intro n acc hn
      rw [List.length_cons] at hn
      rcases Nat.exists_eq_succ_of_ne_zero (Nat.ne_of_gt (Nat.lt_of_lt_of_le (Nat.succ_pos _) hn))
        with ⟨n, rfl⟩
      rw [callArgsRest_slot E h, parse_bind_some (accept_true hcomma)]
      have hlist : acc ++ arg :: args = (acc ++ [arg]) ++ args := by
        rw [List.append_assoc]
        rfl
      rw [hlist]
      exact ih n (acc ++ [arg]) (Nat.le_of_succ_le_succ hn)

/-- A written argument list is read as its slots. -/
theorem parseCallArgs_slots (E : ParseEnv) (h : Slots expr s args s') {n : Nat}
    (hn : args.length ≤ n) : parseCallArgs E expr n s = some (slotArgs args, s') := by
  unfold parseCallArgs
  cases hparen : s.head.is .rParen with
  | true =>
      rw [parse_bind_some (accept_true hparen)]
      have hskip : (s.head.is .comma || s.head.is .rParen) = true := by
        rw [hparen, Bool.or_true]
      -- the first slot is skipped and no comma follows it
      cases h with
      | last h hend =>
          cases h with
          | skipped h => rfl
          | filled h he =>
              rw [hskip] at h
              cases h
      | cons h hcomma hrest =>
          cases h with
          | skipped h =>
              rw [not_comma hparen] at hcomma
              cases hcomma
          | filled h he =>
              rw [hskip] at h
              cases h
  | false =>
      rw [parse_bind_some (accept_false hparen)]
      have hargs : slotArgs args = args := by
        cases h with
        | last h hend =>
            cases h with
            | skipped h =>
                rw [hparen] at hend
                cases hend
            | filled h he => rfl
        | @cons s s₁ s' arg args h hcomma hrest =>
            cases hrest with
            | last h hend => cases arg <;> rfl
            | cons h hcomma hrest => cases arg <;> rfl
      rw [hargs]
      exact callArgsRest_slots E h n [] hn

end Parse

end Hlang.Parser
