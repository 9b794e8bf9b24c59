import Hlang.Lib.Lts
import Hlang.Runtime.Except

/-!
# Hlang.Runtime.Search — the outward search for an exception handler

Two machines run the same events: entering a `try`, reaching the end of a try
body, a throw, a write to `Fs->catch_except`, reaching the end of a catch body.

1. **Search**: what `try`/`catch` is for. Every running catch body has its own
   exception and its own claim; a body that ends unclaimed passes *its*
   exception on to the next enclosing active `try`.
2. **Runtime**: the calls `CG::genTry` emits, over the three shared cells of
   `Hlang.Runtime.Except`. The scopes only say where `longjmp` lands.

`search_iff` compares them over whole runs. A handler that runs inside a catch
body overwrites `except_ch` and clears `catch_except`, so the runtime follows
the search exactly at those ends of catch bodies that such a handler has not
disturbed; throws always follow it.
-/

namespace Hlang.Runtime

/-- What a running program tells the exception runtime. -/
inductive Event where
  | enterTry (f : Frame)
  | endTry
  | throw (ch : I64)
  /-- `Fs->catch_except=v;` in a catch body -/
  | setCatch (v : I64)
  | endCatch

/-! ## The search, abstractly -/

namespace Search

/-- An active try body, or a running catch body with the exception it was
entered for and what its own body last said about claiming it. -/
inductive Scope where
  | tryBody
  | catchBody (ch : I64) (claimed : Bool)
deriving DecidableEq

/-- The scopes the program is in, innermost first, or its end by an exception
that nobody handles. -/
inductive State where
  | running (K : List Scope)
  | unhandled (ch : I64)
deriving DecidableEq

/-- The innermost active try takes the exception and is removed. -/
def search (ch : I64) : List Scope → State
  | [] => .unhandled ch
  | .tryBody :: K => .running (.catchBody ch false :: K)
  | .catchBody _ _ :: K => search ch K

/-- The innermost catch body records its claim. -/
def claim (b : Bool) : List Scope → Option (List Scope)
  | [] => none
  | .tryBody :: K => (claim b K).map (.tryBody :: ·)
  | .catchBody ch _ :: K => some (.catchBody ch b :: K)

def step : List Scope → Event → Option State
  | K, .enterTry _ => some (.running (.tryBody :: K))
  | .tryBody :: K, .endTry => some (.running K)
  | K, .throw ch => some (search ch K)
  | K, .setCatch v => (claim (v ≠ 0) K).map .running
  | .catchBody _ true :: K, .endCatch => some (.running K)
  | .catchBody ch false :: K, .endCatch => some (search ch K)
  | _, _ => none

/-- The runs of the search. The runtime's wild jumps have no counterpart. -/
def searches : Lts (Option State) Event :=
  Lts.ofStep (some (.running [])) fun s e => match s with
    | some (.running K) => some (step K e)
    | _ => none

/-- A search never ends in the scopes it started from. -/
theorem search_ne_running (ch : I64) (K : List Scope) : search ch K ≠ .running K := by
  have hlen : ∀ K' : List Scope, search ch K = .running K' →
      K'.length < K.length ∨ ∃ K₀, K = .tryBody :: K₀ ∧ K' = .catchBody ch false :: K₀ := by
    induction K with
    | nil => simp [search]
    | cons s K ih =>
        intro K' h
        cases s with
        | tryBody =>
            simp only [search, State.running.injEq] at h
            exact Or.inr ⟨K, rfl, h.symm⟩
        | catchBody ch' b =>
            rcases ih K' h with hlt | ⟨K₀, rfl, rfl⟩
            · exact Or.inl (by simp; omega)
            · exact Or.inl (by simp)
  intro h
  rcases hlen K h with hlt | ⟨K₀, hK, hK'⟩
  · omega
  · rw [hK] at hK'
    simp at hK'

/-- Searches for different exceptions end differently. -/
theorem search_injective {ch ch' : I64} {K : List Scope} (h : search ch K = search ch' K) :
    ch = ch' := by
  induction K with
  | nil => simpa [search] using h
  | cons s K ih =>
      cases s with
      | tryBody => simpa [search] using h
      | catchBody _ _ => exact ih h

end Search

/-! ## The runtime -/

/-- The history of a running catch body: the exception it was entered for, the
claim it last made, the last exception that a handler inside it was entered
for, and whether its own last word came after that handler. -/
structure Handler where
  ch : I64
  claimed : Bool := false
  inner : Option I64 := none
  fresh : Bool := true
deriving DecidableEq

/-- A scope of the running program. A try body has its frame. -/
inductive Scope where
  | tryBody (f : Frame)
  | catchBody (h : Handler)
deriving DecidableEq

/-- The frames of the active trys, innermost first. -/
def tries (K : List Scope) : List Frame :=
  K.filterMap fun
    | .tryBody f => some f
    | .catchBody _ => none

structure Config where
  cells : Cells := {}
  scopes : List Scope := []

/-- The state of the program. `wild` is a `longjmp` into a frame that is not
there any more. -/
inductive State where
  | running (c : Config)
  | unhandled (ch : I64)
  | wild

/-- Where a `longjmp` to the frame `f` lands: below the try body that pushed
it. -/
def landing (f : Frame) : List Scope → Option (List Scope)
  | [] => none
  | .tryBody g :: K => if g = f then some K else landing f K
  | .catchBody _ :: K => landing f K

/-- A handler for `ch` is entered inside the catch bodies around it. -/
def overtake (ch : I64) : Scope → Scope
  | .tryBody f => .tryBody f
  | .catchBody h => .catchBody { h with inner := some ch, fresh := false }

/-- Control after a runtime call. At the landing place of a `longjmp` the
generated code branches to the catch block, which begins with
`HC_CatchEnter`. -/
def resume : Outcome → List Scope → State
  | .returns c, K => .running ⟨c, K⟩
  | .exits ch, _ => .unhandled ch
  | .longjmp f c, K => match landing f K with
    | none => .wild
    | some rest =>
        .running ⟨hcCatchEnter c, .catchBody { ch := c.exceptCh } :: rest.map (overtake c.exceptCh)⟩

/-- The innermost catch body writes `catch_except`. -/
def setClaim (b : Bool) : List Scope → Option (List Scope)
  | [] => none
  | .tryBody f :: K => (setClaim b K).map (.tryBody f :: ·)
  | .catchBody h :: K => some (.catchBody { h with claimed := b, fresh := true } :: K)

/-- One event of a running program. A `try` statement has its own frame, which
is free while its body does not run. -/
def runStep (c : Config) : Event → Option State
  | .enterTry f =>
      if f ∈ tries c.scopes then none
      else some (.running ⟨hcTryPush f c.cells, .tryBody f :: c.scopes⟩)
  | .endTry => match c.scopes with
    | .tryBody _ :: K => some (.running ⟨hcTryPop c.cells, K⟩)
    | _ => none
  | .throw ch => some (resume (hcThrow ch c.cells) c.scopes)
  | .setCatch v =>
      (setClaim (v ≠ 0) c.scopes).map fun K => .running ⟨{ c.cells with catchExcept := v }, K⟩
  | .endCatch => match c.scopes with
    | .catchBody _ :: K => some (resume (hcCatchDone c.cells) K)
    | _ => none

def step : State → Event → Option State
  | .running c, e => runStep c e
  | _, _ => none

/-- Every sequence of events, from a program that is in no `try`. -/
def exceptions : Lts State Event := Lts.ofStep (.running {}) step

/-- Forget frames and history. -/
def Scope.toSearch : Scope → Search.Scope
  | .tryBody _ => .tryBody
  | .catchBody h => .catchBody h.ch h.claimed

def State.toSearch : State → Option Search.State
  | .running c => some (.running (c.scopes.map Scope.toSearch))
  | .unhandled ch => some (.unhandled ch)
  | .wild => none

/-- The handler stack holds exactly the active trys. -/
def State.Balanced : State → Prop
  | .running c => c.cells.Handlers (tries c.scopes)
  | .unhandled _ => True
  | .wild => False

/-- The step does what the search says, and leaves the active trys on the
handler stack. -/
def Follows : Lts.Entry State Event → Prop
  | (.running c, e, s') =>
      s'.toSearch = Search.step (c.scopes.map Scope.toSearch) e ∧ s'.Balanced
  | _ => False

/-- No handler inside the catch body that ends has disturbed it: a claim was
made after the last such handler was entered; without a claim, that handler (if
there was one) was entered for the same exception. -/
def Undisturbed : Lts.Entry State Event → Prop
  | (.running ⟨_, .catchBody h :: _⟩, .endCatch, _) =>
      (h.claimed = true → h.fresh = true) ∧ (h.claimed = false → h.inner.getD h.ch = h.ch)
  | _ => True

instance : DecidablePred Undisturbed := fun p => by
  unfold Undisturbed
  split <;> infer_instance

/-! ## What the cells hold -/

/-- The cells hold what the running catch bodies left in them: `except_ch` the
last exception handled, `catch_except` the word of the innermost catch body, if
no handler ran since. -/
def CellsAgree (c : Cells) : List Scope → Prop
  | [] => True
  | .tryBody _ :: K => CellsAgree c K
  | .catchBody h :: K =>
      (c.catchExcept ≠ 0 ↔ h.claimed ∧ h.fresh) ∧ c.exceptCh = h.inner.getD h.ch ∧
        ∀ h', .catchBody h' ∈ K → h'.fresh = false ∧ c.exceptCh = h'.inner.getD h'.ch

/-- The invariant of a running program. -/
structure Inv (c : Config) : Prop where
  handlers : c.cells.Handlers (tries c.scopes)
  nodup : (tries c.scopes).Nodup
  cells : CellsAgree c.cells c.scopes

def State.Inv : State → Prop
  | .running c => Runtime.Inv c
  | .unhandled _ => True
  | .wild => False

section Scopes

variable {K : List Scope} {f : Frame} {ch : I64}

@[simp] theorem tries_nil : tries [] = [] := rfl

@[simp] theorem tries_tryBody : tries (.tryBody f :: K) = f :: tries K := rfl

@[simp] theorem tries_catchBody {h : Handler} : tries (.catchBody h :: K) = tries K := rfl

@[simp] theorem tries_overtake : tries (K.map (overtake ch)) = tries K := by
  induction K with
  | nil => rfl
  | cons s K ih => cases s <;> simp [overtake, ih]

@[simp] theorem toSearch_overtake :
    (K.map (overtake ch)).map Scope.toSearch = K.map Scope.toSearch := by
  induction K with
  | nil => rfl
  | cons s K ih => cases s <;> simp [overtake, Scope.toSearch, ih]

/-- The top frame lands below the innermost active try, where the search
ends. -/
theorem landing_eq {fs : List Frame} (h : tries K = f :: fs) (ch : I64) :
    ∃ rest, landing f K = some rest ∧ tries rest = fs ∧
      Search.search ch (K.map Scope.toSearch) =
        .running (.catchBody ch false :: rest.map Scope.toSearch) := by
  induction K with
  | nil => simp at h
  | cons s K ih =>
      cases s with
      | tryBody g =>
          simp only [tries_tryBody, List.cons.injEq] at h
          exact ⟨K, by simp [landing, h.1], h.2, rfl⟩
      | catchBody h' => exact ih h

theorem search_of_no_tries (h : tries K = []) (ch : I64) :
    Search.search ch (K.map Scope.toSearch) = .unhandled ch := by
  induction K with
  | nil => rfl
  | cons s K ih =>
      cases s with
      | tryBody g => simp at h
      | catchBody h' => exact ih h

/-- A claim goes to the innermost catch body on both sides. -/
theorem setClaim_toSearch (b : Bool) :
    (setClaim b K).map (·.map Scope.toSearch) = Search.claim b (K.map Scope.toSearch) := by
  induction K with
  | nil => rfl
  | cons s K ih =>
      cases s with
      | tryBody g =>
          simp only [setClaim, List.map_cons, Scope.toSearch, Search.claim, ← ih]
          cases setClaim b K <;> rfl
      | catchBody h => rfl

theorem tries_setClaim {b : Bool} {K' : List Scope} (h : setClaim b K = some K') :
    tries K' = tries K := by
  induction K generalizing K' with
  | nil => simp [setClaim] at h
  | cons s K ih =>
      cases s with
      | tryBody g =>
          simp only [setClaim, Option.map_eq_some_iff] at h
          rcases h with ⟨K₁, hK₁, rfl⟩
          simp [ih hK₁]
      | catchBody h' =>
          simp only [setClaim, Option.some.injEq] at h
          subst h
          rfl

end Scopes

section Cells

variable {c : Cells} {K : List Scope}

/-- Pushing and popping frames leaves the exception fields alone. -/
theorem CellsAgree.congr {c' : Cells} (h : CellsAgree c K) (hch : c'.exceptCh = c.exceptCh)
    (hcatch : c'.catchExcept = c.catchExcept) : CellsAgree c' K := by
  induction K with
  | nil => trivial
  | cons s K ih =>
      cases s with
      | tryBody f => exact ih h
      | catchBody h' =>
          unfold CellsAgree at h ⊢
          rw [hch, hcatch]
          exact h

/-- Writing `catch_except` is a claim of the innermost catch body. -/
theorem CellsAgree.setClaim {v : I64} {K' : List Scope} (h : CellsAgree c K)
    (hK : Runtime.setClaim (v ≠ 0) K = some K') :
    CellsAgree { c with catchExcept := v } K' := by
  induction K generalizing K' with
  | nil => simp [Runtime.setClaim] at hK
  | cons s K ih =>
      cases s with
      | tryBody f =>
          simp only [Runtime.setClaim, Option.map_eq_some_iff] at hK
          rcases hK with ⟨K₁, hK₁, rfl⟩
          have hrest : CellsAgree { c with catchExcept := v } K₁ := ih h hK₁
          exact hrest
      | catchBody h' =>
          simp only [Runtime.setClaim, Option.some.injEq] at hK
          subst hK
          exact ⟨by simp, h.2.1, h.2.2⟩

/-- When a handler is entered, the catch bodies around it are overtaken. -/
theorem cellsAgree_enter (hcatch : c.catchExcept = 0) :
    CellsAgree c (.catchBody { ch := c.exceptCh } :: K.map (overtake c.exceptCh)) := by
  refine ⟨by simp [hcatch], rfl, ?_⟩
  intro h' hh'
  rcases List.mem_map.mp hh' with ⟨s, -, hs⟩
  cases s with
  | tryBody f => simp [overtake] at hs
  | catchBody h =>
      simp only [overtake, Scope.catchBody.injEq] at hs
      subst hs
      exact ⟨rfl, rfl⟩

/-- When a catch body ends with its claim, the next one around it has been
overtaken, and the flag is clear. -/
theorem CellsAgree.leave {h : Handler} (hc : CellsAgree c (.catchBody h :: K)) :
    CellsAgree { c with catchExcept := 0 } K := by
  have hrest : ∀ h', .catchBody h' ∈ K → h'.fresh = false ∧ c.exceptCh = h'.inner.getD h'.ch :=
    hc.2.2
  clear hc
  induction K with
  | nil => trivial
  | cons s K ih =>
      cases s with
      | tryBody f => exact ih (fun h' hh' => hrest h' (List.mem_cons_of_mem _ hh'))
      | catchBody h' =>
          have hh' := hrest h' (List.mem_cons_self)
          refine ⟨by simp [hh'.1], hh'.2, ?_⟩
          intro h'' hh''
          exact hrest h'' (List.mem_cons_of_mem _ hh'')

end Cells

/-! ## The steps -/

/-- A throw transfers to the innermost active try and removes it. -/
theorem resume_hcThrow {c : Cells} {K : List Scope} (hh : c.Handlers (tries K))
    (hnd : (tries K).Nodup) (ch : I64) :
    (resume (hcThrow ch c) K).toSearch = some (Search.search ch (K.map Scope.toSearch)) ∧
      (resume (hcThrow ch c) K).Balanced ∧ (resume (hcThrow ch c) K).Inv := by
  cases htries : tries K with
  | nil =>
      rw [htries] at hh
      rw [hcThrow_nil hh, search_of_no_tries htries]
      exact ⟨rfl, trivial, trivial⟩
  | cons f fs =>
      rw [htries] at hh hnd
      rcases hcThrow_cons hh ch with ⟨c', hthrow, hfs, hch, hcatch⟩
      rcases landing_eq htries ch with ⟨rest, hland, hrest, hsearch⟩
      have hres : resume (hcThrow ch c) K = .running ⟨hcCatchEnter c',
          .catchBody { ch := ch } :: rest.map (overtake ch)⟩ := by
        rw [hthrow]
        simp [resume, hland, hch]
      have hhand : (hcCatchEnter c').Handlers
          (tries (.catchBody { ch := ch } :: rest.map (overtake ch))) := by
        simpa [hrest] using hfs
      rw [hres, hsearch]
      refine ⟨?_, hhand, ?_⟩
      · simp only [State.toSearch, List.map_cons, toSearch_overtake, Scope.toSearch]
      · refine ⟨hhand, ?_, ?_⟩
        · simpa [hrest] using (List.nodup_cons.mp hnd).2
        · have henter := cellsAgree_enter (c := hcCatchEnter c') (K := rest) rfl
          have hch' : (hcCatchEnter c').exceptCh = ch := hch
          rw [hch'] at henter
          exact henter

/-- Step lemma of the invariant, with what the step does. -/
theorem step_spec {c : Config} {e : Event} {s' : State} (hinv : Inv c)
    (hs : runStep c e = some s') :
    s'.Inv ∧ s'.Balanced ∧ (Follows (.running c, e, s') ↔ Undisturbed (.running c, e, s')) := by
  rcases c with ⟨cells, K⟩
  rcases hinv with ⟨hh, hnd, hcells⟩
  simp only at hh hnd hcells
  cases e with
  | enterTry f =>
      simp only [runStep] at hs
      split at hs
      · simp at hs
      · next hf =>
          simp only [Option.some.injEq] at hs
          subst hs
          have hhand := handlers_tryPush hh hf
          refine ⟨⟨hhand, ?_, hcells.congr rfl rfl⟩, hhand, ?_⟩
          · exact List.nodup_cons.mpr ⟨hf, hnd⟩
          · simp only [Follows, Undisturbed, iff_true]
            exact ⟨rfl, hhand⟩
  | endTry =>
      simp only [runStep] at hs
      split at hs
      · next f K =>
          simp only [Option.some.injEq] at hs
          subst hs
          have hhand := handlers_tryPop hh
          have hcells' : CellsAgree (hcTryPop cells) K := by
            refine CellsAgree.congr (c := cells) hcells ?_ ?_ <;>
              · unfold hcTryPop
                cases cells.tryTop <;> rfl
          refine ⟨⟨hhand, (List.nodup_cons.mp hnd).2, hcells'⟩, hhand, ?_⟩
          simp only [Follows, Undisturbed, iff_true]
          exact ⟨rfl, hhand⟩
      · simp at hs
  | throw ch =>
      simp only [runStep, Option.some.injEq] at hs
      subst hs
      rcases resume_hcThrow hh hnd ch with ⟨hsearch, hbal, hinv⟩
      refine ⟨hinv, hbal, ?_⟩
      simp only [Follows, Undisturbed, iff_true]
      refine ⟨?_, hbal⟩
      rw [hsearch]
      cases K with
      | nil => rfl
      | cons s K => cases s <;> rfl
  | setCatch v =>
      simp only [runStep, Option.map_eq_some_iff] at hs
      rcases hs with ⟨K', hK', rfl⟩
      have htries := tries_setClaim hK'
      have hhand : cells.Handlers (tries K') := by rw [htries]; exact hh
      refine ⟨⟨hhand, by rw [htries]; exact hnd, hcells.setClaim hK'⟩, hhand, ?_⟩
      simp only [Follows, Undisturbed, iff_true]
      refine ⟨?_, hhand⟩
      have hclaim := setClaim_toSearch (K := K) (v ≠ 0)
      rw [hK'] at hclaim
      have hsome : Search.step (K.map Scope.toSearch) (.setCatch v) =
          (Search.claim (v ≠ 0) (K.map Scope.toSearch)).map .running := by
        cases K with
        | nil => rfl
        | cons s K => cases s <;> rfl
      rw [hsome, ← hclaim]
      rfl
  | endCatch =>
      simp only [runStep] at hs
      split at hs
      · next h K =>
          simp only [Option.some.injEq] at hs
          subst hs
          have hflag := hcells.1
          have hch := hcells.2.1
          have hthrow := resume_hcThrow (K := K) hh hnd cells.exceptCh
          by_cases hzero : cells.catchExcept = 0
          · -- the flag is clear: the runtime rethrows `except_ch`
            have hdone : hcCatchDone cells = hcThrow cells.exceptCh cells := by
              simp [hcCatchDone, hzero]
            rw [hdone]
            refine ⟨hthrow.2.2, hthrow.2.1, ?_⟩
            have hnot : ¬ (h.claimed = true ∧ h.fresh = true) := fun hcl => hflag.mpr hcl hzero
            simp only [Follows, Undisturbed, hthrow.1, hthrow.2.1, and_true, List.map_cons,
              Scope.toSearch]
            cases hclaimed : h.claimed with
            | true =>
                have hfresh : h.fresh ≠ true := fun hf => hnot ⟨hclaimed, hf⟩
                simp only [Search.step, Option.some.injEq, forall_const, reduceCtorEq,
                  IsEmpty.forall_iff, and_true, hfresh, iff_false]
                exact Search.search_ne_running _ _
            | false =>
                simp only [Search.step, Option.some.injEq, forall_const, reduceCtorEq,
                  IsEmpty.forall_iff, true_and, ← hch]
                constructor
                · exact Search.search_injective
                · intro heq
                  rw [heq]
          · -- the innermost catch body claimed the exception
            have hcl := hflag.mp hzero
            have hdone : hcCatchDone cells = .returns { cells with catchExcept := 0 } := by
              unfold hcCatchDone
              rw [if_neg hzero]
            rw [hdone]
            refine ⟨⟨hh, hnd, hcells.leave⟩, hh, ?_⟩
            have hfollows : Follows (.running ⟨cells, .catchBody h :: K⟩, .endCatch,
                resume (.returns { cells with catchExcept := 0 }) K) := by
              refine ⟨?_, hh⟩
              simp only [resume, State.toSearch, List.map_cons, Scope.toSearch, hcl.1,
                Search.step]
            simp only [hfollows, true_iff]
            exact ⟨fun _ => hcl.2, fun hfalse => by simp [hcl.1] at hfalse⟩
      · simp at hs

/-- The invariant holds along every run. -/
theorem inv_invariant : exceptions.Invariant State.Inv where
  init := by
    rintro s rfl
    exact ⟨linked_nil.mpr rfl, List.nodup_nil, trivial⟩
  step := by
    intro s e s' hinv hs
    cases s with
    | running c => exact (step_spec hinv hs).1
    | unhandled ch => exact absurd hs (by simp [exceptions, Lts.ofStep, step])
    | wild => exact absurd hs (by simp [exceptions, Lts.ofStep, step])

/-- At every step from an invariant state, following the search means that the
step is undisturbed. -/
theorem follows_iff (s : State) (e : Event) (s' : State) (hinv : s.Inv)
    (hs : exceptions.step s e s') : Follows (s, e, s') ↔ Undisturbed (s, e, s') := by
  cases s with
  | running c => exact (step_spec hinv hs).2.2
  | unhandled ch => exact absurd hs (by simp [exceptions, Lts.ofStep, step])
  | wild => exact absurd hs (by simp [exceptions, Lts.ofStep, step])

/-- The steps the program makes on a list of events. -/
def historyOf (es : List Event) : List (Lts.Entry State Event) :=
  ((Lts.replay step (.running {}) es).map Prod.fst).getD []

theorem run_historyOf {es : List Event} {r : List (Lts.Entry State Event) × State}
    (hr : Lts.replay step (.running {}) es = some r) : exceptions.Run (historyOf es) r.2 := by
  have hrun := Lts.run_replay es (.start rfl) hr
  unfold historyOf
  rw [hr]
  exact hrun

/-- In a run whose steps are all undisturbed, the search makes the same run. -/
theorem run_refines_search {hist : List (Lts.Entry State Event)} {s : State}
    (h : exceptions.Run hist s) (hcalm : ∀ p ∈ hist, Undisturbed p) :
    Search.searches.Run (hist.map fun p => (p.1.toSearch, p.2.1, p.2.2.toSearch)) s.toSearch := by
  refine h.map State.toSearch ?_ ?_
  · rintro s rfl
    rfl
  · intro p hp
    have hfollows := (inv_invariant.forall_iff follows_iff h).mpr hcalm p hp
    rcases p with ⟨s, e, s'⟩
    cases s with
    | running c => exact congrArg some hfollows.1.symm
    | unhandled ch => exact absurd hfollows (by simp [Follows])
    | wild => exact absurd hfollows (by simp [Follows])

end Hlang.Runtime
