import Hlang.Token
import Mathlib.Logic.Function.Basic

/-!
# Hlang.Runtime.Except — the exception runtime

The five calls that `CG::genTry` emits, and `HC_Throw`, over the three cells
they share: the top of the handler stack `hc_try_top`, and the fields
`except_ch` and `catch_except` of `Fs`. A try frame is a stack slot of the
generated code; only its address and its `prev` link matter here. A call that
ends in `longjmp` does not return: its outcome names the frame it jumps to.
-/

namespace Hlang.Runtime

/-- The address of a try frame. -/
abbrev Frame := Nat

/-- The cells of the exception runtime. -/
structure Cells where
  /-- `hc_try_top` -/
  tryTop : Option Frame := none
  /-- the `prev` field of the frame at an address -/
  prev : Frame → Option Frame := fun _ => none
  /-- `HC_Fs->except_ch` -/
  exceptCh : I64 := 0
  /-- `HC_Fs->catch_except` -/
  catchExcept : I64 := 0

/-- How a runtime call ends. -/
inductive Outcome where
  | returns (c : Cells)
  | longjmp (f : Frame) (c : Cells)
  /-- `Unhandled exception`, then `exit(1)` -/
  | exits (ch : I64)

/-- `HC_TryPush`. -/
def hcTryPush (f : Frame) (c : Cells) : Cells :=
  { c with prev := Function.update c.prev f c.tryTop, tryTop := some f }

/-- `HC_TryPop`. -/
def hcTryPop (c : Cells) : Cells :=
  match c.tryTop with
  | some f => { c with tryTop := c.prev f }
  | none => c

/-- `HC_Throw`. -/
def hcThrow (ch : I64) (c : Cells) : Outcome :=
  let c := { c with exceptCh := ch }
  match c.tryTop with
  | none => .exits ch
  | some f => .longjmp f { c with tryTop := c.prev f }

/-- `HC_CatchEnter`. -/
def hcCatchEnter (c : Cells) : Cells := { c with catchExcept := 0 }

/-- `HC_CatchDone`. -/
def hcCatchDone (c : Cells) : Outcome :=
  if c.catchExcept = 0 then hcThrow c.exceptCh c
  else .returns { c with catchExcept := 0 }

/-- `Linked prev top fs`: following `prev` from `top` visits the frames `fs`. -/
def Linked (prev : Frame → Option Frame) : Option Frame → List Frame → Prop
  | none, [] => True
  | some f, g :: fs => f = g ∧ Linked prev (prev f) fs
  | _, _ => False

/-- The handler stack of the cells is `fs`, innermost first. -/
def Cells.Handlers (c : Cells) (fs : List Frame) : Prop := Linked c.prev c.tryTop fs

section Linked

variable {prev : Frame → Option Frame} {fs : List Frame}

@[simp] theorem linked_none : Linked prev none fs ↔ fs = [] := by
  cases fs with
  | nil => exact iff_of_true trivial rfl
  | cons f fs => exact iff_of_false id (List.cons_ne_nil f fs)

@[simp] theorem linked_nil {top : Option Frame} : Linked prev top [] ↔ top = none := by
  cases top with
  | none => exact iff_of_true trivial rfl
  | some f => exact iff_of_false id (Option.some_ne_none f)

theorem linked_cons {top : Option Frame} {f : Frame} :
    Linked prev top (f :: fs) ↔ top = some f ∧ Linked prev (prev f) fs := by
  cases top with
  | none => exact iff_of_false id fun h => Option.some_ne_none f h.1.symm
  | some g =>
      constructor
      · rintro ⟨rfl, h⟩
        exact ⟨rfl, h⟩
      · rintro ⟨hg, h⟩
        rcases Option.some.inj hg with rfl
        exact ⟨rfl, h⟩

/-- Writing the link of a frame that is not on the list changes nothing. -/
theorem linked_update {top : Option Frame} {f : Frame} {p : Option Frame} (hf : f ∉ fs) :
    Linked (Function.update prev f p) top fs ↔ Linked prev top fs := by
  induction fs generalizing top with
  | nil => simp
  | cons g fs ih =>
      have hg : g ≠ f := fun h => hf (by simp [h])
      have hrest : f ∉ fs := fun h => hf (by simp [h])
      rw [linked_cons, linked_cons, Function.update_of_ne hg, ih hrest]

end Linked

variable {c : Cells} {fs : List Frame}

/-- Pushing a frame that is not on the stack puts it on top. -/
theorem handlers_tryPush {f : Frame} (h : c.Handlers fs) (hf : f ∉ fs) :
    (hcTryPush f c).Handlers (f :: fs) := by
  unfold Cells.Handlers at h ⊢
  rw [linked_cons]
  exact ⟨rfl, by simpa [hcTryPush, linked_update hf] using h⟩

/-- Popping removes the top frame. -/
theorem handlers_tryPop {f : Frame} (h : c.Handlers (f :: fs)) : (hcTryPop c).Handlers fs := by
  unfold Cells.Handlers at h ⊢
  rcases linked_cons.mp h with ⟨htop, hrest⟩
  simpa [hcTryPop, htop] using hrest

/-- A throw with no handler leaves the program. -/
theorem hcThrow_nil (h : c.Handlers []) (ch : I64) : hcThrow ch c = .exits ch := by
  have htop : c.tryTop = none := linked_nil.mp h
  simp [hcThrow, htop]

/-- A throw jumps to the top frame and removes it. -/
theorem hcThrow_cons {f : Frame} (h : c.Handlers (f :: fs)) (ch : I64) :
    ∃ c', hcThrow ch c = .longjmp f c' ∧ c'.Handlers fs ∧ c'.exceptCh = ch ∧
      c'.catchExcept = c.catchExcept := by
  rcases linked_cons.mp h with ⟨htop, hrest⟩
  refine ⟨{ c with exceptCh := ch, tryTop := c.prev f }, ?_, hrest, rfl, rfl⟩
  simp [hcThrow, htop]

@[simp] theorem handlers_catchEnter : (hcCatchEnter c).Handlers fs ↔ c.Handlers fs := Iff.rfl

end Hlang.Runtime
