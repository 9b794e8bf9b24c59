import Mathlib.Tactic.Common

/-!
# Returns — total correctness of partial state machines

A computation over states of `σ` that may fail returns from `s` with `Q` when it
gives a value and a state of `Q`. The rules follow the combinators of the
monad. A loop that is bounded by a number returns whenever each turn that goes
on lowers a measure of the state, and the bound is above the measure.
-/

universe u

variable {σ α β γ : Type u}

/-- Started in `s`, `x` returns with a value and a state of `Q`. -/
def Returns (x : StateT σ Option α) (s : σ) (Q : α → σ → Prop) : Prop :=
  ∃ a s', x s = some (a, s') ∧ Q a s'

namespace Returns

variable {x : StateT σ Option α} {f : α → StateT σ Option β} {s : σ} {Q Q' : α → σ → Prop}
  {R : β → σ → Prop}

theorem pure {a : α} (h : Q a s) : Returns (Pure.pure a) s Q := ⟨a, s, rfl, h⟩

theorem mono (h : Returns x s Q) (hQ : ∀ a s', Q a s' → Q' a s') : Returns x s Q' := by
  rcases h with ⟨a, s', hrun, hq⟩
  exact ⟨a, s', hrun, hQ a s' hq⟩

theorem bind (h : Returns x s Q) (hf : ∀ a s', Q a s' → Returns (f a) s' R) :
    Returns (x >>= f) s R := by
  rcases h with ⟨a, s₁, hrun, hq⟩
  rcases hf a s₁ hq with ⟨b, s', hrun', hr⟩
  refine ⟨b, s', ?_, hr⟩
  change (x s).bind _ = _
  rw [hrun]
  exact hrun'

theorem ite {c : Prop} [Decidable c] {y z : StateT σ Option α} (hy : c → Returns y s Q)
    (hz : ¬ c → Returns z s Q) : Returns (if c then y else z) s Q := by
  split
  · next h => exact hy h
  · next h => exact hz h

/-- The rule of loops that are bounded by a number. -/
theorem loop {f : Nat → γ → StateT σ Option α} {μ : σ → Nat} {P : γ → σ → Prop}
    {R : γ → σ → α → σ → Prop}
    (hturn : ∀ n c s, P c s → μ s ≤ n →
      (∀ c' s', P c' s' → μ s' < μ s → Returns (f n c') s' (R c' s')) →
      Returns (f (n + 1) c) s (R c s)) :
    ∀ n c s, P c s → μ s < n → Returns (f n c) s (R c s) := by
  intro n
  induction n with
  | zero => exact fun _ _ _ h => absurd h (Nat.not_lt_zero _)
  | succ n ih =>
      intro c s hP hn
      refine hturn n c s hP (Nat.le_of_lt_succ hn) ?_
      intro c' s' hP' hlt
      exact ih c' s' hP' (by omega)

end Returns
