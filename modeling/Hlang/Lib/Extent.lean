import Mathlib.Tactic.Common
import Mathlib.Algebra.Group.Nat.Defs

/-!
# Extent — ranges of addresses in a space that wraps around

A range by its first address and its length. An address is in it if its distance
upward from the start is less than the length, so a range may run over the end of
the space. `overlay` puts new contents on a range.
-/

universe u

/-- The `len` addresses from `base` on. -/
structure Extent (w : ℕ) where
  base : BitVec w
  len : ℕ

namespace Extent

variable {w : ℕ} {e e' e'' : Extent w} {x : BitVec w}

/-- `x` lies in the range. -/
def Has (e : Extent w) (x : BitVec w) : Prop := (x - e.base).toNat < e.len

instance (e : Extent w) (x : BitVec w) : Decidable (e.Has x) := inferInstanceAs (Decidable (_ < _))

/-- `e` is a part of `e'`. -/
def Part (e e' : Extent w) : Prop := ∀ x, e.Has x → e'.Has x

/-- `e` and `e'` have no address in common. -/
def Apart (e e' : Extent w) : Prop := ∀ x, e.Has x → ¬ e'.Has x

theorem Part.refl (e : Extent w) : e.Part e := fun _ h => h

theorem Part.trans (h : e.Part e') (h' : e'.Part e'') : e.Part e'' := fun x hx => h' x (h x hx)

theorem Apart.symm (h : e.Apart e') : e'.Apart e := fun x hx hx' => h x hx' hx

/-- Parts of ranges that are apart are apart. -/
theorem Apart.mono {a b : Extent w} (h : e.Apart e') (ha : a.Part e) (hb : b.Part e') :
    a.Apart b :=
  fun x hx hx' => h x (ha x hx) (hb x hx')

theorem eq_ofNat_toNat (x : BitVec w) : x = BitVec.ofNat w x.toNat := by
  rw [BitVec.ofNat_toNat, BitVec.setWidth_eq]

/-- The distance of an address from the start. -/
theorem sub_base_offset (b : BitVec w) {i : ℕ} (hi : i < 2 ^ w) :
    (b + BitVec.ofNat w i - b).toNat = i := by
  rw [BitVec.add_comm, BitVec.add_sub_cancel, BitVec.toNat_ofNat]
  exact Nat.mod_eq_of_lt hi

theorem has_offset {i : ℕ} (hi : i < 2 ^ w) :
    e.Has (e.base + BitVec.ofNat w i) ↔ i < e.len := by
  unfold Has
  rw [sub_base_offset e.base hi]

/-- An address of the range is at some offset. -/
theorem Has.eq_offset (x : BitVec w) (e : Extent w) :
    x = e.base + BitVec.ofNat w (x - e.base).toNat := by
  rw [BitVec.ofNat_toNat, BitVec.setWidth_eq, BitVec.add_comm, BitVec.sub_add_cancel]

/-- The distance of `x` from an address at offset `k`, where `x` is not before it. -/
theorem sub_offset {b : BitVec w} {k : ℕ} (hk : k ≤ (x - b).toNat) :
    (x - (b + BitVec.ofNat w k)).toNat = (x - b).toNat - k := by
  have hlt : k < 2 ^ w := Nat.lt_of_le_of_lt hk (x - b).isLt
  have hsub : x - (b + BitVec.ofNat w k) = (x - b) - BitVec.ofNat w k := by
    rw [BitVec.sub_eq_add_neg, BitVec.neg_add, BitVec.sub_eq_add_neg, BitVec.sub_eq_add_neg,
      BitVec.sub_eq_add_neg, BitVec.add_assoc]
  have hval : (BitVec.ofNat w k).toNat = k := by
    rw [BitVec.toNat_ofNat]
    exact Nat.mod_eq_of_lt hlt
  rw [hsub, BitVec.toNat_sub_of_le, hval]
  rw [BitVec.le_def, hval]
  exact hk

/-- Two ranges, one behind the other. -/
theorem apart_offset {b : BitVec w} {k n : ℕ} (h : k + n ≤ 2 ^ w) :
    Apart ⟨b, k⟩ ⟨b + BitVec.ofNat w k, n⟩ := by
  intro x hx hx'
  unfold Has at hx hx'
  dsimp only at hx hx'
  have hsub : x - (b + BitVec.ofNat w k) = (x - b) - BitVec.ofNat w k := by
    rw [BitVec.sub_eq_add_neg, BitVec.neg_add, BitVec.sub_eq_add_neg, BitVec.sub_eq_add_neg,
      BitVec.sub_eq_add_neg, BitVec.add_assoc]
  rw [hsub, BitVec.toNat_sub, BitVec.toNat_ofNat] at hx'
  generalize (x - b).toNat = d at hx hx'
  -- a distance below `k` wraps around
  rcases Nat.eq_or_lt_of_le (Nat.le_trans (Nat.le_add_right k n) h) with hk | hk
  · omega
  · rw [Nat.mod_eq_of_lt hk, Nat.mod_eq_of_lt (by omega)] at hx'
    omega

/-- A range that starts at an offset and ends inside is a part. -/
theorem part_offset {k n : ℕ} (h : k + n ≤ e.len) (hlen : e.len ≤ 2 ^ w) :
    Part ⟨e.base + BitVec.ofNat w k, n⟩ e := by
  intro x hx
  have hoff := Has.eq_offset x ⟨e.base + BitVec.ofNat w k, n⟩
  unfold Has at hx
  dsimp only at hx hoff
  generalize (x - (e.base + BitVec.ofNat w k)).toNat = i at hx hoff
  have hx' : x = e.base + BitVec.ofNat w (k + i) := by
    rw [hoff, BitVec.ofNat_add, BitVec.add_assoc]
  rw [hx']
  exact (has_offset (by omega)).mpr (by omega)

/-- A part that starts at an offset in the range, or right behind it, ends inside. -/
theorem Part.end_le {k n : ℕ} (hk : k ≤ e.len) (hlen : e.len < 2 ^ w)
    (h : Part ⟨e.base + BitVec.ofNat w k, n⟩ e) : k + n ≤ e.len := by
  by_contra hlong
  -- the first address behind the range would be in the part
  have hbehind : Has ⟨e.base + BitVec.ofNat w k, n⟩ (e.base + BitVec.ofNat w e.len) := by
    unfold Has
    have hdist := sub_base_offset e.base hlen
    rw [sub_offset (by rw [hdist]; exact hk), hdist]
    dsimp only
    omega
  exact Nat.lt_irrefl _ ((has_offset hlen).mp (h _ hbehind))

/-- `f`, with the contents `g` on the range. -/
def overlay {β : Type u} (e : Extent w) (g : ℕ → β) (f : BitVec w → β) : BitVec w → β :=
  fun x => if e.Has x then g (x - e.base).toNat else f x

variable {β : Type u} {f : BitVec w → β} {g : ℕ → β}

theorem overlay_of_not_has (h : ¬ e.Has x) : e.overlay g f x = f x := if_neg h

theorem overlay_offset {i : ℕ} (hi : i < e.len) (hw : i < 2 ^ w) :
    e.overlay g f (e.base + BitVec.ofNat w i) = g i := by
  unfold overlay
  rw [if_pos ((has_offset hw).mpr hi), sub_base_offset e.base hw]

end Extent
