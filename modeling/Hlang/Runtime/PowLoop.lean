import Hlang.Lib.Machine
import Hlang.Runtime.Pow

/-!
# Hlang.Runtime.PowLoop — the loop of the integer power

`HC_PowI64` as it runs, one turn of its loop for each bit of the exponent. What `hcPowLoop` would
still make of the state is the same after every turn, and the exponent loses a bit, so the loop
ends after at most 63 turns with the power in `r`.
-/

namespace Hlang.Runtime

open Machine

/-- The variables of the loop of `HC_PowI64`. -/
structure PowState where
  r : I64
  base : I64
  e : I64

/-- One turn of the loop. -/
def powStep (s : PowState) : Option PowState :=
  if s.e = 0 then none
  else some
    { r := if s.e &&& 1 ≠ 0 then s.r * s.base else s.r
      base := s.base * s.base
      e := s.e.sshiftRight 1 }

/-- What the loop would still make of a state. -/
def PowState.result (s : PowState) : I64 := hcPowLoop s.r s.base s.e.toNat

theorem and_one_ne_zero_iff (e : I64) : e &&& 1 ≠ 0 ↔ e.toNat % 2 = 1 := by
  have hand : (e &&& 1).toNat = e.toNat % 2 := by
    rw [BitVec.toNat_and]
    exact Nat.and_one_is_mod _
  rw [ne_eq, ← BitVec.toNat_inj, hand]
  change ¬ e.toNat % 2 = 0 ↔ _
  omega

/-- The shift halves an exponent that is not negative. -/
theorem toNat_sshiftRight_one {e : I64} (he : e.toNat < 2 ^ 63) :
    (e.sshiftRight 1).toNat = e.toNat / 2 := by
  have hmsb : e.msb = false := BitVec.msb_eq_false_iff_two_mul_lt.mpr (by omega)
  rw [BitVec.sshiftRight_eq_of_msb_false hmsb, BitVec.toNat_ushiftRight, Nat.shiftRight_eq_div_pow]

/-- A turn does not change the result, and takes a bit from the exponent. -/
theorem powStep_some {s s' : PowState} (he : s.e.toNat < 2 ^ 63) (h : powStep s = some s') :
    s'.result = s.result ∧ s'.e.toNat = s.e.toNat / 2 := by
  unfold powStep at h
  by_cases hzero : s.e = 0
  · rw [if_pos hzero] at h
    cases h
  rw [if_neg hzero] at h
  rcases Option.some.inj h with rfl
  have hhalf := toNat_sshiftRight_one he
  refine ⟨?_, hhalf⟩
  have hne : s.e.toNat ≠ 0 := fun h => hzero (BitVec.eq_of_toNat_eq h)
  unfold PowState.result
  rw [hcPowLoop.eq_def s.r, if_neg hne]
  change hcPowLoop (if s.e &&& 1 ≠ 0 then _ else _) _ (s.e.sshiftRight 1).toNat = _
  rw [hhalf]
  by_cases hodd : s.e.toNat % 2 = 1
  · rw [if_pos ((and_one_ne_zero_iff s.e).mpr hodd), if_pos hodd]
  · rw [if_neg (fun h => hodd ((and_one_ne_zero_iff s.e).mp h)), if_neg hodd]

/-- The loop ends, after as many turns as the exponent has bits, with the result in `r`. -/
theorem powStep_run (k : ℕ) : ∀ s : PowState, k ≤ 63 → s.e.toNat < 2 ^ k →
    ∃ n t, n ≤ k ∧ After powStep n s t ∧ powStep t = none ∧ t.r = s.result := by
  -- an exponent of 0 ends the loop
  have hend : ∀ s : PowState, s.e = 0 → powStep s = none ∧ s.r = s.result := by
    intro s hs
    unfold powStep PowState.result
    rw [hs, if_pos rfl, hcPowLoop]
    exact ⟨rfl, (if_pos rfl).symm⟩
  induction k with
  | zero =>
      intro s _ hlt
      rcases hend s (BitVec.eq_of_toNat_eq (Nat.lt_one_iff.mp hlt)) with ⟨hstop, hr⟩
      exact ⟨0, s, Nat.le_refl _, .zero s, hstop, hr⟩
  | succ k ih =>
      intro s hk hlt
      cases hstep : powStep s with
      | none =>
          have hzero : s.e = 0 := by
            by_contra hne
            unfold powStep at hstep
            rw [if_neg hne] at hstep
            cases hstep
          exact ⟨0, s, Nat.zero_le _, .zero s, hstep, (hend s hzero).2⟩
      | some s' =>
          have he : s.e.toNat < 2 ^ 63 :=
            Nat.lt_of_lt_of_le hlt (Nat.pow_le_pow_right (by decide) hk)
          rcases powStep_some he hstep with ⟨hresult, hhalf⟩
          have hlt' : s'.e.toNat < 2 ^ k := by
            rw [hhalf]
            rw [Nat.pow_succ] at hlt
            omega
          rcases ih s' (by omega) hlt' with ⟨n, t, hn, hrun, hstop, hr⟩
          exact ⟨n + 1, t, Nat.succ_le_succ hn, .succ hstep hrun, hstop, hr.trans hresult⟩

/-- The power of words is that of the signed numbers, modulo `2 ^ 64`. -/
theorem toInt_pow (b : I64) (n : ℕ) : (b ^ n).toInt = (b.toInt ^ n).bmod (2 ^ 64) := by
  induction n with
  | zero =>
      rw [pow_zero, pow_zero]
      rfl
  | succ n ih =>
      rw [pow_succ, pow_succ, BitVec.toInt_mul, ih, Int.bmod_mul_bmod]

/-- For an exponent that is not negative the loop of `HC_PowI64` ends, and what is returned is
the power modulo `2 ^ 64`, as a signed number. -/
theorem hcPowI64_power (b e : I64) (he : 0 ≤ e.toInt) :
    (∃ n t, n ≤ 63 ∧ After powStep n ⟨1, b, e⟩ t ∧ powStep t = none ∧ hcPowI64 b e = t.r) ∧
    (hcPowI64 b e).toInt = (b.toInt ^ e.toInt.toNat).bmod (2 ^ 64) := by
  have hslt : e.slt 0 = false := by
    rw [BitVec.slt_eq_decide, decide_eq_false_iff_not, not_lt]
    exact he
  have hlt : e.toNat < 2 ^ 63 := by
    have h := BitVec.toInt_eq_toNat_cond e
    have hb := e.isLt
    split_ifs at h <;> omega
  have hnat : e.toInt.toNat = e.toNat := by
    rw [BitVec.toInt_eq_toNat_of_lt (by omega), Int.toNat_natCast]
  constructor
  · rcases powStep_run 63 ⟨1, b, e⟩ (Nat.le_refl _) hlt with ⟨n, t, hn, hrun, hstop, hr⟩
    refine ⟨n, t, hn, hrun, hstop, ?_⟩
    unfold hcPowI64
    rw [hslt, hr]
    rfl
  · rw [hcPowI64_eq hslt, hnat]
    exact toInt_pow b e.toNat

/-- A power that does not fit. -/
theorem hcPowI64_power_wraps : 0 ≤ (41 : I64).toInt ∧
    (hcPowI64 (-3) 41).toInt = ((-3) ^ 41 : ℤ).bmod (2 ^ 64) :=
  ⟨by decide, (hcPowI64_power (-3) 41 (by decide)).2⟩

end Hlang.Runtime
