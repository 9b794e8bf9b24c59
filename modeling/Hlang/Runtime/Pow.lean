import Hlang.Token
import Mathlib.Data.BitVec
import Mathlib.Tactic.Ring

/-!
# Hlang.Runtime.Pow — the integer power of the runtime

`HC_PowI64`, the integer form of the power operator: square and multiply over
the bits of a nonnegative exponent.
-/

namespace Hlang.Runtime

/-- The loop of `HC_PowI64`. -/
def hcPowLoop (r base : I64) (e : ℕ) : I64 :=
  if e = 0 then r
  else hcPowLoop (if e % 2 = 1 then r * base else r) (base * base) (e / 2)
termination_by e
decreasing_by omega

/-- `HC_PowI64`. -/
def hcPowI64 (base e : I64) : I64 := if e.slt 0 then 0 else hcPowLoop 1 base e.toNat

/-- The loop multiplies `r` by the power of `base`. -/
theorem hcPowLoop_eq (r base : I64) (e : ℕ) : hcPowLoop r base e = r * base ^ e := by
  induction r, base, e using hcPowLoop.induct with
  | case1 r base =>
      unfold hcPowLoop
      simp
  | case2 r base e he ih =>
      simp only [dite_eq_ite] at ih
      unfold hcPowLoop
      rw [if_neg he, ih]
      have hsplit : base ^ e = base ^ (e % 2) * (base * base) ^ (e / 2) := by
        rw [← pow_two, ← pow_mul, ← pow_add, Nat.mod_add_div]
      rw [hsplit]
      rcases Nat.mod_two_eq_zero_or_one e with h | h
      · simp [h]
      · simp only [h, if_true, pow_one]
        ring

/-- `HC_PowI64` is the power, modulo `2 ^ 64`, of a nonnegative exponent. -/
theorem hcPowI64_eq {base e : I64} (he : e.slt 0 = false) : hcPowI64 base e = base ^ e.toNat := by
  unfold hcPowI64
  rw [he, hcPowLoop_eq]
  simp

/-- `HC_PowI64` is 0 for a negative exponent. -/
theorem hcPowI64_neg {base e : I64} (he : e.slt 0 = true) : hcPowI64 base e = 0 := by
  unfold hcPowI64
  rw [he]
  rfl

end Hlang.Runtime
