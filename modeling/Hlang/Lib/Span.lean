import Mathlib.Tactic.Common
import Mathlib.Algebra.Order.Ring.Nat

/-!
# Span — ranges of bytes

A range by its start and its length, one range inside another and two ranges
apart, and the blocks of an array.
-/

/-- The range from `start` on of length `len`. -/
structure Span where
  start : ℕ
  len : ℕ

namespace Span

/-- `a` lies inside `b`. -/
def Inside (a b : Span) : Prop := b.start ≤ a.start ∧ a.start + a.len ≤ b.start + b.len

/-- `a` and `b` do not overlap. -/
def Apart (a b : Span) : Prop := a.start + a.len ≤ b.start ∨ b.start + b.len ≤ a.start

/-- The range moved up by `n`. -/
def shift (a : Span) (n : ℕ) : Span := ⟨n + a.start, a.len⟩

variable {a b c d : Span}

theorem Inside.refl (a : Span) : a.Inside a := ⟨Nat.le_refl _, Nat.le_refl _⟩

theorem Inside.trans (h : a.Inside b) (h' : b.Inside c) : a.Inside c :=
  ⟨h'.1.trans h.1, h.2.trans h'.2⟩

theorem Inside.shift (h : a.Inside b) (n : ℕ) : (a.shift n).Inside (b.shift n) := by
  unfold Inside Span.shift at *
  dsimp only
  omega

theorem Apart.symm (h : a.Apart b) : b.Apart a := Or.symm h

/-- Parts of ranges that are apart are apart. -/
theorem Apart.mono (h : a.Apart b) (ha : c.Inside a) (hb : d.Inside b) : c.Apart d := by
  unfold Apart Inside at *
  omega

theorem Apart.shift (h : a.Apart b) (n : ℕ) : (a.shift n).Apart (b.shift n) := by
  unfold Apart Span.shift at *
  dsimp only
  omega

/-- Block `k` of blocks of `n` bytes. -/
def block (n k : ℕ) : Span := ⟨k * n, n⟩

theorem block_inside {n k m : ℕ} (h : (k + 1) * n ≤ m) : (block n k).Inside ⟨0, m⟩ := by
  constructor
  · exact Nat.zero_le _
  · change k * n + n ≤ 0 + m
    rw [Nat.succ_mul] at h
    omega

theorem block_apart {n k k' : ℕ} (h : k ≠ k') : (block n k).Apart (block n k') := by
  unfold Apart block
  dsimp only
  rcases Nat.lt_or_gt_of_ne h with hlt | hlt
  · left
    have hle := Nat.mul_le_mul_right n hlt
    rwa [Nat.succ_mul] at hle
  · right
    have hle := Nat.mul_le_mul_right n hlt
    rwa [Nat.succ_mul] at hle

end Span
