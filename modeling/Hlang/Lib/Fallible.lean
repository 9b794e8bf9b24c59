import Mathlib.Tactic.Common

/-!
# Fallible — computations in `Except`

What a successful computation says about its parts, and the invariant rule for
a loop that may fail.
-/

universe u v

namespace Fallible

variable {ε : Type u} {α β σ : Type v}

@[simp] theorem bind_eq_ok {x : Except ε α} {f : α → Except ε β} {b : β} :
    x >>= f = .ok b ↔ ∃ a, x = .ok a ∧ f a = .ok b := by
  cases x with
  | error e => simp [bind, Except.bind]
  | ok a => simp [bind, Except.bind]

@[simp] theorem map_eq_ok {x : Except ε α} {f : α → β} {b : β} :
    f <$> x = .ok b ↔ ∃ a, x = .ok a ∧ f a = b := by
  cases x with
  | error e => simp [Functor.map, Except.map]
  | ok a => simp [Functor.map, Except.map]

@[simp] theorem pure_eq_ok {a b : α} : (pure a : Except ε α) = .ok b ↔ a = b := by
  simp [pure, Except.pure]

/-- What one turn of a loop preserves, the loop preserves. -/
theorem foldlM_inv {f : σ → α → Except ε σ} {I : σ → Prop}
    (hstep : ∀ s a s', I s → f s a = .ok s' → I s') {l : List α} {s s' : σ}
    (hs : I s) (h : l.foldlM f s = .ok s') : I s' := by
  induction l generalizing s with
  | nil =>
      simp only [List.foldlM_nil, pure_eq_ok] at h
      rwa [← h]
  | cons a l ih =>
      rw [List.foldlM_cons, bind_eq_ok] at h
      rcases h with ⟨s₁, h₁, h⟩
      exact ih (hstep s a s₁ hs h₁) h

end Fallible
