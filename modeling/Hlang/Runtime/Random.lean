import Hlang.Lib.Lts
import Hlang.Lib.Xorshift
import Hlang.Token
import Mathlib.Algebra.Group.Nat.Defs

/-!
# Hlang.Runtime.Random — the random generator of the runtime

`hc_rand_state` is one word. `HC_Seed` sets it and each of the other calls replaces it by its
successor and returns some bits of a multiple of that. The successor is a composition of xorshift
steps, so no two states have the same one, and the state is 0 in no run.
-/

namespace Hlang.Runtime

/-- The initial value of `hc_rand_state`. -/
def hcRandState : I64 := 0x5EED5EED5EED5EED

/-- `HC_Seed`, where `time` and `clock` return `t` and `c`: the state it leaves. -/
def hcSeed (t c seed : I64) : I64 :=
  let seed := if seed = 0 then t ^^^ c <<< 20 else seed
  if seed ≠ 0 then seed else 1

/-- `HC_RandU64`: the value and the state it leaves. -/
def hcRandU64 (state : I64) : I64 × I64 :=
  let x := state
  let x := x ^^^ x >>> 12
  let x := x ^^^ x <<< 25
  let x := x ^^^ x >>> 27
  (x * 0x2545F4914F6CDD1D, x)

/-- `HC_RandI64`. -/
def hcRandI64 (state : I64) : I64 × I64 := hcRandU64 state

/-- `HC_RandU32`. -/
def hcRandU32 (state : I64) : I64 × I64 := ((hcRandU64 state).1 >>> 32, (hcRandU64 state).2)

/-- `HC_RandU16`. -/
def hcRandU16 (state : I64) : I64 × I64 := ((hcRandU64 state).1 >>> 48, (hcRandU64 state).2)

/-- A call, with what the clocks tell it. -/
inductive RandCall where
  | seed (t c seed : I64)
  | randU64
  | randI64
  | randU32
  | randU16

/-- What a call returns, and the state it leaves. -/
def RandCall.run (state : I64) : RandCall → Option I64 × I64
  | .seed t c n => (none, hcSeed t c n)
  | .randU64 => (some (hcRandU64 state).1, (hcRandU64 state).2)
  | .randI64 => (some (hcRandI64 state).1, (hcRandI64 state).2)
  | .randU32 => (some (hcRandU32 state).1, (hcRandU32 state).2)
  | .randU16 => (some (hcRandU16 state).1, (hcRandU16 state).2)

/-- The call draws a number. -/
def RandCall.Draws : RandCall → Prop
  | .seed _ _ _ => False
  | _ => True

/-- Calls in any order. -/
def randGenerator : Lts I64 (RandCall × Option I64) where
  init state := state = hcRandState
  step state call state' := call.1.run state = (call.2, state')

/-! ## The successor of a state -/

/-- The state behind a call that draws. -/
def randNext (state : I64) : I64 := (hcRandU64 state).2

theorem randNext_steps (state : I64) :
    randNext state = Xorshift.right 27 (Xorshift.left 25 (Xorshift.right 12 state)) := rfl

theorem RandCall.Draws.state {call : RandCall} (h : call.Draws) (state : I64) :
    (call.run state).2 = randNext state := by
  cases call with
  | seed t c n => exact absurd h id
  | _ => rfl

theorem randNext_bijective : Function.Bijective randNext := by
  have hfirst : Function.Bijective (Xorshift.right 12 : I64 → I64) :=
    Xorshift.bijective_right (by decide)
  have hsecond : Function.Bijective (Xorshift.left 25 : I64 → I64) :=
    Xorshift.bijective_left (by decide)
  have hthird : Function.Bijective (Xorshift.right 27 : I64 → I64) :=
    Xorshift.bijective_right (by decide)
  exact hthird.comp (hsecond.comp hfirst)

/-- The state 0 is its own successor, and that of no other state. -/
theorem randNext_eq_zero_iff {state : I64} : randNext state = 0 ↔ state = 0 := by
  have hzero : randNext 0 = 0 :=
    (((Xorshift.linear_right 12).comp (Xorshift.linear_left 25)).comp (Xorshift.linear_right 27)).zero
  constructor
  · intro h
    exact randNext_bijective.injective (h.trans hzero.symm)
  · rintro rfl
    exact hzero

theorem hcSeed_ne_zero (t c seed : I64) : hcSeed t c seed ≠ 0 := by
  have hset : ∀ n : I64, (if n ≠ 0 then n else 1) ≠ 0 := by
    intro n
    split_ifs with h
    · exact h
    · exact fun h => absurd h (by decide)
  exact hset _

/-- No call leaves the state 0. -/
theorem randGenerator_ne_zero : randGenerator.Invariant (· ≠ 0) := by
  constructor
  case init =>
    rintro state rfl
    decide
  case step =>
    intro state call state' hne hstep
    have hstate : (call.1.run state).2 = state' := congrArg Prod.snd hstep
    rw [← hstate]
    rcases call with ⟨call, value⟩
    by_cases hdraws : call.Draws
    · rw [hdraws.state]
      exact fun h => hne (randNext_eq_zero_iff.mp h)
    · cases call with
      | seed t c n => exact hcSeed_ne_zero t c n
      | _ => exact absurd trivial hdraws

/-- Draws keep states apart. -/
theorem draws_injective (calls : List RandCall) (h : ∀ call ∈ calls, call.Draws) :
    Function.Injective fun state => calls.foldl (fun s call => (call.run s).2) state := by
  induction calls with
  | nil => exact Function.injective_id
  | cons call calls ih =>
      intro state state' heq
      have hcall := h call List.mem_cons_self
      have hnext : (call.run state).2 = (call.run state').2 :=
        ih (fun c hc => h c (List.mem_cons_of_mem _ hc)) heq
      rw [hcall.state, hcall.state] at hnext
      exact randNext_bijective.injective hnext

/-- In no run is the state ever 0, which no draw leaves; the successor is a bijection, and draws
never make two states one. -/
theorem generator_never_degenerates :
    (∀ hist state, randGenerator.Run hist state → state ≠ 0) ∧
    (∀ state, (hcRandU64 state).2 = 0 ↔ state = 0) ∧
    Function.Bijective (fun state => (hcRandU64 state).2) ∧
    ∀ calls : List RandCall, (∀ call ∈ calls, call.Draws) →
      Function.Injective fun state => calls.foldl (fun s call => (call.run s).2) state := by
  refine ⟨?_, ?_, randNext_bijective, draws_injective⟩
  · intro hist state hrun
    exact randGenerator_ne_zero.run hrun
  · intro state
    exact randNext_eq_zero_iff

/-! ## What is drawn -/

/-- After `Seed` with a number that is not 0, what is drawn does not depend on the past. -/
theorem hcSeed_of_ne_zero {seed : I64} (h : seed ≠ 0) (t c : I64) : hcSeed t c seed = seed := by
  unfold hcSeed
  rw [if_neg h, if_pos h]

/-- The values of `RandU32` and `RandU16` fit their types. -/
theorem rand_bounds (state : I64) :
    (hcRandU32 state).1.toNat < 2 ^ 32 ∧ (hcRandU16 state).1.toNat < 2 ^ 16 := by
  have hlt := (hcRandU64 state).1.isLt
  constructor
  · change ((hcRandU64 state).1 >>> 32).toNat < 2 ^ 32
    rw [BitVec.toNat_ushiftRight, Nat.shiftRight_eq_div_pow]
    omega
  · change ((hcRandU64 state).1 >>> 48).toNat < 2 ^ 16
    rw [BitVec.toNat_ushiftRight, Nat.shiftRight_eq_div_pow]
    omega

/-- Distinct states draw distinct values with `RandU64`, as the factor is odd. -/
theorem hcRandU64_injective : Function.Injective fun state => (hcRandU64 state).1 := by
  intro state state' h
  have hinv : (0x2545F4914F6CDD1D : I64) * 0x59071D96D81ECD35 = 1 := by decide
  have hvalue : randNext state * 0x2545F4914F6CDD1D = randNext state' * 0x2545F4914F6CDD1D := h
  have hone : ∀ x : I64, x * 1 = x := BitVec.mul_one
  have hnext : randNext state = randNext state' := by
    calc randNext state = randNext state * 0x2545F4914F6CDD1D * 0x59071D96D81ECD35 := by
          rw [BitVec.mul_assoc, hinv, hone]
      _ = randNext state' * 0x2545F4914F6CDD1D * 0x59071D96D81ECD35 := by rw [hvalue]
      _ = randNext state' := by rw [BitVec.mul_assoc, hinv, hone]
  exact randNext_bijective.injective hnext

end Hlang.Runtime
