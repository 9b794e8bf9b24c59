import Mathlib.Tactic.Common

/-!
# Machine — deterministic machines and interpreters

A machine is a step function. An interpreter that runs with fuel agrees with a machine
(`Agrees`) if the machine ends as the interpreter does, and takes at least `n` steps where
the interpreter has spent `n` units of fuel. Then both end in the same ways
(`Agrees.ends_iff`) and have the same trace, finite or not (`Agrees.trace_iff`).
-/

namespace Machine

variable {σ τ ρ ε : Type}

/-- `n` steps. -/
inductive After (step : σ → Option σ) : Nat → σ → σ → Prop where
  | zero (s : σ) : After step 0 s s
  | succ {n : Nat} {s t u : σ} (hs : step s = some t) (h : After step n t u) :
      After step (n + 1) s u

variable {step step' : σ → Option σ} {m n : Nat} {s t u : σ}

theorem After.single (h : step s = some t) : After step 1 s t := .succ h (.zero t)

theorem After.trans (h : After step m s t) (h' : After step n t u) : After step (m + n) s u := by
  induction h with
  | zero s =>
      rw [Nat.zero_add]
      exact h'
  | @succ m s t v hs _ ih =>
      rw [Nat.add_right_comm]
      exact .succ hs (ih h')

/-- A run of a machine is a run of a machine that can do more. -/
theorem After.mono (hstep : ∀ s t, step s = some t → step' s = some t) (h : After step n s t) :
    After step' n s t := by
  induction h with
  | zero s => exact .zero s
  | succ hs _ ih => exact .succ (hstep _ _ hs) ih

/-- A longer run passes where the shorter one ends. -/
theorem After.pass (h : After step m s t) (h' : After step n s u) (hmn : m ≤ n) :
    After step (n - m) t u := by
  induction h generalizing n with
  | zero s => exact h'
  | @succ m s t v hs _ ih =>
      cases h' with
      | zero => exact absurd hmn (Nat.not_succ_le_zero m)
      | @succ n _ t' _ hs' h' =>
          rcases Option.some.inj (hs.symm.trans hs') with rfl
          rw [Nat.succ_sub_succ]
          exact ih h' (Nat.le_of_succ_le_succ hmn)

theorem After.eq_of_zero (h : After step 0 s t) : s = t := by
  cases h with
  | zero => rfl

/-- A machine runs no longer than to where it stops. -/
theorem After.le_of_stop (h : After step m s t) (ht : step t = none) (h' : After step n s u) :
    n ≤ m := by
  by_contra hlt
  have hrest := h.pass h' (by omega)
  have hpos : n - m = (n - m - 1) + 1 := by omega
  rw [hpos] at hrest
  cases hrest with
  | succ hs _ =>
      rw [ht] at hs
      cases hs

/-- What a machine has done, where every step keeps the order. -/
theorem After.rel {r : σ → σ → Prop} (hrefl : ∀ s, r s s) (htrans : ∀ s t u, r s t → r t u → r s u)
    (hstep : ∀ s t, step s = some t → r s t) (h : After step n s t) : r s t := by
  induction h with
  | zero s => exact hrefl s
  | succ hs _ ih => exact htrans _ _ _ (hstep _ _ hs) ih

/-! ## Interpreters -/

/-- The machine stops in the states of `ends`, and these tell how it ended. -/
structure Ends (step : σ → Option σ) (ends : ρ → σ → Prop) : Prop where
  stop : ∀ r s, ends r s → step s = none
  unique : ∀ r r' s, ends r s → ends r' s → r = r'

/-- The interpreter agrees with the machine started in `s`: with `n` units of fuel it
ends as the machine does, or else the machine takes at least `n` steps to what it shows. -/
def Agrees (step : σ → Option σ) (ends : ρ → σ → Prop) (obs : σ → τ) (s : σ)
    (interp : Nat → Option ρ × τ) : Prop :=
  ∀ n, ∃ k t, After step k s t ∧ obs t = (interp n).2 ∧
    match (interp n).1 with
    | some r => ends r t
    | none => n ≤ k

section Agrees

variable {ends : ρ → σ → Prop} {obs : σ → τ} {interp : Nat → Option ρ × τ}

/-- With enough fuel the interpreter ends where the machine stops. -/
theorem Agrees.of_stop (h : Agrees step ends obs s interp) (hends : Ends step ends)
    (ht : After step n s t) (hstop : step t = none) :
    ∃ r, interp (n + 1) = (some r, obs t) ∧ ends r t := by
  rcases h (n + 1) with ⟨k, u, hu, hobs, hend⟩
  have hk : k ≤ n := ht.le_of_stop hstop hu
  cases hr : (interp (n + 1)).1 with
  | none =>
      rw [hr] at hend
      exact absurd hend (by change ¬ n + 1 ≤ k; omega)
  | some r =>
      rw [hr] at hend
      have hn : n ≤ k := hu.le_of_stop (hends.stop r u hend) ht
      have hrest := hu.pass ht hk
      rw [Nat.sub_eq_zero_of_le hn] at hrest
      rcases hrest.eq_of_zero with rfl
      exact ⟨r, Prod.ext hr hobs.symm, hend⟩

/-- The machine ends as the interpreter ends with some fuel. -/
theorem Agrees.ends_iff (h : Agrees step ends obs s interp) (hends : Ends step ends) (r : ρ)
    (o : τ) : (∃ n t, After step n s t ∧ ends r t ∧ obs t = o) ↔ ∃ n, interp n = (some r, o) := by
  constructor
  · rintro ⟨n, t, ht, hend, rfl⟩
    rcases h.of_stop hends ht (hends.stop r t hend) with ⟨r', hinterp, hend'⟩
    rcases hends.unique r r' t hend hend' with rfl
    exact ⟨n + 1, hinterp⟩
  · rintro ⟨n, hn⟩
    rcases h n with ⟨k, t, ht, hobs, hend⟩
    rw [hn] at hobs hend
    exact ⟨k, t, ht, hend, hobs⟩

/-- The trace of the machine is the trace of the interpreter: every part of the one is
part of the other. -/
theorem Agrees.trace_iff (h : Agrees step ends obs s interp) (hends : Ends step ends)
    (trace : τ → List ε)
    (htrace : ∀ s t, step s = some t → trace (obs s) <+: trace (obs t)) (es : List ε) :
    (∃ n t, After step n s t ∧ es <+: trace (obs t)) ↔ ∃ n, es <+: trace (interp n).2 := by
  constructor
  · rintro ⟨n, t, ht, hes⟩
    rcases h n with ⟨k, u, hu, hobs, hend⟩
    refine ⟨n, ?_⟩
    have hk : n ≤ k := by
      cases hr : (interp n).1 with
      | none =>
          rw [hr] at hend
          exact hend
      | some r =>
          rw [hr] at hend
          exact hu.le_of_stop (hends.stop r u hend) ht
    have hle := (ht.pass hu hk).rel (r := fun s t => trace (obs s) <+: trace (obs t))
      (fun _ => List.prefix_refl _) (fun _ _ _ => List.IsPrefix.trans) htrace
    rw [← hobs]
    exact hes.trans hle
  · rintro ⟨n, hes⟩
    rcases h n with ⟨k, t, ht, hobs, _⟩
    exact ⟨k, t, ht, hobs ▸ hes⟩

end Agrees

end Machine
