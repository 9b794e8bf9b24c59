import Mathlib.Data.Int.Basic
import Mathlib.Data.List.Nodup
import Mathlib.Algebra.Order.Group.Int
import Mathlib.Tactic.Common

/-!
# Signed — signed words that do not wrap

Successor, difference and counting loop of signed words of `w` bits, with no result where
the exact value is out of range.
-/

namespace Signed

variable {w : Nat} {x y lo hi v : BitVec w} {vs : List (BitVec w)}

/-- `x + 1`. -/
def succ? (x : BitVec w) : Option (BitVec w) :=
  if x = BitVec.intMax w then none else some (x + 1)

/-- `x - y`. -/
def sub? (x y : BitVec w) : Option (BitVec w) :=
  if x.ssubOverflow y then none else some (x - y)

theorem toInt_succ (hx : x ≠ BitVec.intMax w) : (x + 1).toInt = x.toInt + 1 := by
  rcases Nat.lt_or_ge 1 w with hw | hw
  · have hmax : (BitVec.intMax w).toInt = 2 ^ (w - 1) - 1 := BitVec.toInt_intMax
    have hne : x.toInt ≠ 2 ^ (w - 1) - 1 := by
      intro h
      exact hx (BitVec.eq_of_toInt_eq (h.trans hmax.symm))
    have hlt := BitVec.toInt_lt (x := x)
    have hle := BitVec.le_toInt x
    have hpow : (2 : Int) ^ w = 2 * 2 ^ (w - 1) := by
      rw [Int.mul_comm, ← Int.pow_succ, Nat.succ_eq_add_one, Nat.sub_add_cancel (Nat.le_of_lt hw)]
    have hpos : (0 : Int) < 2 ^ (w - 1) := Int.pow_pos (by decide)
    have hone : (1 : BitVec w).toInt = 1 := BitVec.toInt_one hw
    rw [BitVec.toInt_add, hone]
    have hcast : ((2 ^ w : Nat) : Int) = 2 ^ w := by push_cast; rfl
    exact Int.bmod_eq_of_le (by omega) (by omega)
  · -- of one bit there are two words, of no bit there is one
    rcases Nat.le_one_iff_eq_zero_or_eq_one.mp hw with rfl | rfl
    · exact absurd (Subsingleton.elim _ _) hx
    · revert x
      decide

theorem toInt_le_intMax (x : BitVec w) : x.toInt ≤ (BitVec.intMax w).toInt := by
  rw [BitVec.toInt_intMax]
  have hlt := BitVec.toInt_lt (x := x)
  omega

theorem succ?_eq_some : succ? x = some y ↔ x ≠ BitVec.intMax w ∧ y = x + 1 := by
  unfold succ?
  split_ifs with h
  · simp [h]
  · simp [h, eq_comm]

/-- The values of the loop `for (v = lo; v <= hi; v++)`. -/
def upto (lo hi : BitVec w) : Option (List (BitVec w)) :=
  if lo.sle hi then
    match _h : succ? lo with
    | none => none
    | some v => (upto v hi).map (lo :: ·)
  else some []
termination_by (hi.toInt + 1 - lo.toInt).toNat
decreasing_by
  next hle =>
  rcases succ?_eq_some.mp _h with ⟨hne, rfl⟩
  have hsucc := toInt_succ hne
  have hle' := BitVec.sle_iff_toInt_le.mp hle
  omega

theorem upto_nil (h : hi.toInt < lo.toInt) : upto lo hi = some [] := by
  unfold upto
  rw [if_neg]
  rw [BitVec.sle_iff_toInt_le]
  omega

theorem upto_cons (h : lo.toInt ≤ hi.toInt) (hlo : lo ≠ BitVec.intMax w) :
    upto lo hi = (upto (lo + 1) hi).map (lo :: ·) := by
  rw [upto, if_pos (BitVec.sle_iff_toInt_le.mpr h)]
  split
  · next hnone =>
      rw [succ?_eq_some.mpr ⟨hlo, rfl⟩] at hnone
      cases hnone
  · next v hv =>
      rw [(succ?_eq_some.mp hv).2]

/-- The loop up to the greatest word counts past it. -/
theorem upto_intMax (lo : BitVec w) : upto lo (BitVec.intMax w) = none := by
  by_cases hlo : lo = BitVec.intMax w
  · subst hlo
    rw [upto, if_pos (BitVec.sle_iff_toInt_le.mpr (Int.le_refl _))]
    split
    · rfl
    · next v hv => exact absurd rfl (succ?_eq_some.mp hv).1
  · have hsucc := toInt_succ hlo
    have hle := toInt_le_intMax lo
    have hle' := toInt_le_intMax (lo + 1)
    rw [upto_cons hle hlo, upto_intMax (lo + 1)]
    rfl
termination_by ((BitVec.intMax w).toInt - lo.toInt).toNat
decreasing_by omega

/-- Where its bound has a successor, the loop ends, after the values from `lo` to `hi`. -/
theorem upto_eq (hhi : hi ≠ BitVec.intMax w) (lo : BitVec w) : ∃ vs, upto lo hi = some vs ∧
    vs.map BitVec.toInt =
      (List.range (hi.toInt + 1 - lo.toInt).toNat).map fun k : Nat => lo.toInt + k := by
  by_cases h : lo.toInt ≤ hi.toInt
  · have hlo : lo ≠ BitVec.intMax w := by
      rintro rfl
      have hle := toInt_le_intMax hi
      exact hhi (BitVec.eq_of_toInt_eq (Int.le_antisymm hle h))
    have hsucc := toInt_succ hlo
    rcases upto_eq hhi (lo + 1) with ⟨vs, hvs, hmap⟩
    have hlen : (hi.toInt + 1 - lo.toInt).toNat =
        (hi.toInt + 1 - (lo + 1).toInt).toNat + 1 := by omega
    refine ⟨lo :: vs, ?_, ?_⟩
    · rw [upto_cons h hlo, hvs]
      rfl
    · rw [List.map_cons, hmap, hlen, List.range_succ_eq_map, List.map_cons, List.map_map]
      congr 1
      · omega
      · refine List.map_congr_left fun k _ => ?_
        change (lo + 1).toInt + k = lo.toInt + ((k + 1 : Nat) : Int)
        omega
  · refine ⟨[], upto_nil (Int.not_le.mp h), ?_⟩
    have hlen : (hi.toInt + 1 - lo.toInt).toNat = 0 := by omega
    rw [hlen]
    rfl
termination_by (hi.toInt + 1 - lo.toInt).toNat
decreasing_by omega

end Signed
