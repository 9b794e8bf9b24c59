import Mathlib.Tactic.Common

/-!
# Lts — labelled transition systems and their runs

A system has initial states and steps that carry a label. `Run h s` is a finite
run with the history `h` of its steps, ending in `s`. The rules package the
inductions over runs: an invariant of the steps holds of every state a run
passes (`Invariant.run`, `Invariant.history`), and a map that turns each step
of a history into a step of another system turns the run into a run
(`Run.map`). A system given by a step function replays a list of labels
(`run_replay`).
-/

universe u v w

/-- A labelled transition system. -/
structure Lts (σ : Type u) (ε : Type v) where
  init : σ → Prop
  step : σ → ε → σ → Prop

namespace Lts

variable {σ : Type u} {τ : Type w} {ε : Type v} {L : Lts σ ε}

/-- One step of a history: the state before, the label, the state after. -/
abbrev Entry (σ : Type u) (ε : Type v) := σ × ε × σ

/-- A finite run, with its steps in order. -/
inductive Run (L : Lts σ ε) : List (Entry σ ε) → σ → Prop where
  | start {s : σ} (h : L.init s) : Run L [] s
  | step {hist : List (Entry σ ε)} {s s' : σ} {e : ε} (h : Run L hist s) (hs : L.step s e s') :
      Run L (hist ++ [(s, e, s')]) s'

/-- `I` holds initially and every step preserves it. -/
structure Invariant (L : Lts σ ε) (I : σ → Prop) : Prop where
  init : ∀ s, L.init s → I s
  step : ∀ s e s', I s → L.step s e s' → I s'

/-- An invariant holds at the end of every run. -/
theorem Invariant.run {I : σ → Prop} (hI : L.Invariant I) {hist : List (Entry σ ε)} {s : σ}
    (h : L.Run hist s) : I s := by
  induction h with
  | start h => exact hI.init _ h
  | step _ hs ih => exact hI.step _ _ _ ih hs

/-- Every entry of a history is a step that starts where the invariant holds. -/
theorem Invariant.history {I : σ → Prop} (hI : L.Invariant I) {hist : List (Entry σ ε)} {s : σ}
    (h : L.Run hist s) : ∀ p ∈ hist, I p.1 ∧ L.step p.1 p.2.1 p.2.2 := by
  induction h with
  | start => simp
  | step hrun hs ih =>
      intro p hp
      rcases List.mem_append.mp hp with hp | hp
      · exact ih p hp
      · simp only [List.mem_singleton] at hp
        subst hp
        exact ⟨hI.run hrun, hs⟩

/-- A run all of whose steps have a property ends in a state of `I`, where a step with the
property leads from `I` to `I`. -/
theorem Run.keeps {I : σ → Prop} {P : Entry σ ε → Prop} (hinit : ∀ s, L.init s → I s)
    (hkeep : ∀ s e s', I s → L.step s e s' → P (s, e, s') → I s')
    {hist : List (Entry σ ε)} {s : σ} (h : L.Run hist s) (hP : ∀ p ∈ hist, P p) : I s := by
  induction h with
  | start h => exact hinit _ h
  | @step hist s s' e _ hs ih =>
      rw [List.forall_mem_append, List.forall_mem_singleton] at hP
      exact hkeep s e s' (ih hP.1) hs hP.2

/-- A property and a condition that agree at every step from a state of `I`,
where a step with the property leads to a state of `I` again, agree over whole
runs. -/
theorem Run.forall_iff {I : σ → Prop} {P Q : Entry σ ε → Prop} (hinit : ∀ s, L.init s → I s)
    (hiff : ∀ s e s', I s → L.step s e s' → (P (s, e, s') ↔ Q (s, e, s')))
    (hkeep : ∀ s e s', I s → L.step s e s' → P (s, e, s') → I s')
    {hist : List (Entry σ ε)} {s : σ} (h : L.Run hist s) :
    (∀ p ∈ hist, P p) ↔ ∀ p ∈ hist, Q p := by
  induction h with
  | start h => simp
  | @step hist s s' e hrun hs ih =>
      rw [List.forall_mem_append, List.forall_mem_singleton, List.forall_mem_append,
        List.forall_mem_singleton]
      constructor
      · rintro ⟨hP, hp⟩
        exact ⟨ih.mp hP, (hiff s e s' (hrun.keeps hinit hkeep hP) hs).mp hp⟩
      · rintro ⟨hQ, hq⟩
        have hP := ih.mpr hQ
        exact ⟨hP, (hiff s e s' (hrun.keeps hinit hkeep hP) hs).mpr hq⟩

/-- A property that is equivalent to a condition at every step from an
invariant state is equivalent to it over whole runs. -/
theorem Invariant.forall_iff {I : σ → Prop} (hI : L.Invariant I)
    {P Q : Entry σ ε → Prop}
    (hiff : ∀ s e s', I s → L.step s e s' → (P (s, e, s') ↔ Q (s, e, s')))
    {hist : List (Entry σ ε)} {s : σ} (h : L.Run hist s) :
    (∀ p ∈ hist, P p) ↔ ∀ p ∈ hist, Q p :=
  h.forall_iff hI.init hiff fun s e s' hs hstep _ => hI.step s e s' hs hstep

/-- A run all of whose steps are mapped to steps of `L'` is mapped to a run. -/
theorem Run.map {L' : Lts τ ε} (f : σ → τ) {hist : List (Entry σ ε)} {s : σ}
    (hinit : ∀ s, L.init s → L'.init (f s)) (h : L.Run hist s)
    (hstep : ∀ p ∈ hist, L'.step (f p.1) p.2.1 (f p.2.2)) :
    L'.Run (hist.map fun p => (f p.1, p.2.1, f p.2.2)) (f s) := by
  induction h with
  | start h => exact .start (hinit _ h)
  | step hrun hs ih =>
      rw [List.map_append]
      have hprev := ih (fun p hp => hstep p (List.mem_append_left _ hp))
      exact .step hprev (hstep _ (List.mem_append_right _ (List.mem_singleton.mpr rfl)))

/-! ## Systems given by a step function -/

/-- The system of a partial step function. -/
def ofStep (s₀ : σ) (f : σ → ε → Option σ) : Lts σ ε where
  init s := s = s₀
  step s e s' := f s e = some s'

/-- Take the labels one after the other; `none` when one of them is refused. -/
def replay (f : σ → ε → Option σ) : σ → List ε → Option (List (Entry σ ε) × σ)
  | s, [] => some ([], s)
  | s, e :: es =>
      match f s e with
      | none => none
      | some s' => (replay f s' es).map fun r => ((s, e, s') :: r.1, r.2)

/-- What is replayed is a run. -/
theorem run_replay {s₀ : σ} {f : σ → ε → Option σ} (es : List ε) {hist : List (Entry σ ε)} {s : σ}
    (h : (ofStep s₀ f).Run hist s) {r : List (Entry σ ε) × σ} (hr : replay f s es = some r) :
    (ofStep s₀ f).Run (hist ++ r.1) r.2 := by
  induction es generalizing hist s r with
  | nil =>
      simp only [replay, Option.some.injEq] at hr
      subst hr
      simpa using h
  | cons e es ih =>
      simp only [replay] at hr
      split at hr
      · simp at hr
      · next s' hs =>
          rcases Option.map_eq_some_iff.mp hr with ⟨r', hr', rfl⟩
          have hstep : (ofStep s₀ f).Run (hist ++ [(s, e, s')]) s' := .step h hs
          simpa using ih hstep hr'

end Lts
