import Mathlib.Data.Finite.Defs
import Mathlib.Data.Fintype.EquivFin
import Mathlib.Logic.Function.Basic

/-!
# Xorshift — words combined with their own shifts

A word xored with itself shifted by a positive distance: no two words become the same one. Such
a step respects xor (`Linear`), so it is enough that it takes no word but 0 to 0, and a word that
is its own shift has nothing left in it after enough shifts. As there are only finitely many words,
a step is a bijection.
-/

namespace Xorshift

variable {w n : ℕ} {f g : BitVec w → BitVec w}

/-- `f` respects xor. -/
def Linear (f : BitVec w → BitVec w) : Prop := ∀ x y, f (x ^^^ y) = f x ^^^ f y

/-- `x ^ (x << n)` -/
def left (n : ℕ) (x : BitVec w) : BitVec w := x ^^^ x <<< n

/-- `x ^ (x >> n)` -/
def right (n : ℕ) (x : BitVec w) : BitVec w := x ^^^ x >>> n

theorem Linear.zero (hf : Linear f) : f 0 = 0 := by
  have h : f (0 ^^^ 0) = 0 := (hf 0 0).trans BitVec.xor_self
  have hself : (0 : BitVec w) ^^^ 0 = 0 := BitVec.xor_self
  rw [hself] at h
  exact h

/-- A map that respects xor is injective, if it takes only 0 to 0. -/
theorem Linear.injective (hf : Linear f) (hzero : ∀ x, f x = 0 → x = 0) : Function.Injective f := by
  intro x y hxy
  have hdiff : f (x ^^^ y) = 0 := by
    rw [hf, hxy]
    exact BitVec.xor_self
  exact BitVec.xor_eq_zero_iff.mp (hzero _ hdiff)

theorem linear_left (n : ℕ) : Linear (left n : BitVec w → BitVec w) := by
  intro x y
  unfold left
  rw [BitVec.shiftLeft_xor_distrib]
  ac_rfl

theorem linear_right (n : ℕ) : Linear (right n : BitVec w → BitVec w) := by
  intro x y
  unfold right
  rw [BitVec.ushiftRight_xor_distrib]
  ac_rfl

/-- A word that a shift leaves alone is left alone by any number of them. -/
theorem eq_shiftLeft_mul {x : BitVec w} (h : x = x <<< n) (k : ℕ) : x = x <<< (n * k) := by
  induction k with
  | zero => rw [Nat.mul_zero, BitVec.shiftLeft_zero]
  | succ k ih =>
      rw [Nat.mul_succ, BitVec.shiftLeft_add, ← ih]
      exact h

theorem eq_shiftRight_mul {x : BitVec w} (h : x = x >>> n) (k : ℕ) : x = x >>> (n * k) := by
  induction k with
  | zero => rw [Nat.mul_zero, BitVec.ushiftRight_zero]
  | succ k ih =>
      rw [Nat.mul_succ, BitVec.shiftRight_add, ← ih]
      exact h

theorem Linear.comp (hf : Linear f) (hg : Linear g) : Linear fun x => g (f x) := by
  intro x y
  change g (f (x ^^^ y)) = g (f x) ^^^ g (f y)
  rw [hf, hg]

/-- There are finitely many words. -/
theorem bijective_of_injective (hf : Function.Injective f) : Function.Bijective f := by
  have hfinite : Finite (BitVec w) :=
    Finite.of_injective BitVec.toFin fun x y h => BitVec.toFin_inj.mp h
  exact Finite.injective_iff_bijective.mp hf

theorem bijective_left (hn : 0 < n) : Function.Bijective (left n : BitVec w → BitVec w) := by
  refine bijective_of_injective ((linear_left n).injective ?_)
  intro x hx
  -- `w` shifts leave nothing
  rw [eq_shiftLeft_mul (BitVec.xor_eq_zero_iff.mp hx) w]
  exact BitVec.shiftLeft_eq_zero (Nat.le_mul_of_pos_left w hn)

theorem bijective_right (hn : 0 < n) : Function.Bijective (right n : BitVec w → BitVec w) := by
  refine bijective_of_injective ((linear_right n).injective ?_)
  intro x hx
  rw [eq_shiftRight_mul (BitVec.xor_eq_zero_iff.mp hx) w]
  exact BitVec.ushiftRight_eq_zero (Nat.le_mul_of_pos_left w hn)

end Xorshift
