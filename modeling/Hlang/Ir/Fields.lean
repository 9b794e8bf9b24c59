import Hlang.Ir.Events
import Hlang.Lib.Extent

/-!
# Hlang.Ir.Fields — parts of a word in memory

Words are little-endian, so the bytes from offset `o` on hold the bits from `8 * o`
on. A narrow store splices bits into the word around it, and a narrow load extracts
them.
-/

namespace Hlang.Ir

/-- The bits from `lo` to `lo + w - 1`, set. -/
def bitField (lo w : Nat) : I64 := lowBits w (-1) <<< lo

/-- `x` with the bits from `lo` to `lo + w - 1` replaced by `v` modulo `2 ^ w`. -/
def splice (x : I64) (lo w : Nat) (v : I64) : I64 :=
  (x &&& ~~~(bitField lo w)) ||| (lowBits w v <<< lo)

/-- The bits of `x` from `lo` to `lo + w - 1`, zero- or sign-extended. -/
def extractBits (uns : Bool) (x : I64) (lo w : Nat) : I64 :=
  if uns then lowBits w (x >>> lo) else signBits w (x >>> lo)

/-! ## Bits -/

theorem getLsbD_lowBits (w : Nat) (v : I64) {i : Nat} (hi : i < 64) :
    (lowBits w v).getLsbD i = (decide (i < w) && v.getLsbD i) := by
  unfold lowBits
  rw [BitVec.getLsbD_setWidth, BitVec.getLsbD_setWidth, decide_eq_true hi, Bool.true_and]

theorem toNat_lowBits (w : Nat) (v : I64) : (lowBits w v).toNat = v.toNat % 2 ^ w := by
  unfold lowBits
  rw [BitVec.toNat_setWidth, BitVec.toNat_setWidth]
  exact Nat.mod_eq_of_lt (Nat.lt_of_le_of_lt (Nat.mod_le _ _) v.isLt)

theorem getLsbD_ones {i : Nat} (hi : i < 64) : (-1 : I64).getLsbD i = true := by
  have hones : (-1 : I64) = BitVec.allOnes 64 := rfl
  rw [hones, BitVec.getLsbD_allOnes, decide_eq_true hi]

/-- Inside the field a spliced word has the bits of `v`, elsewhere those of `x`. -/
theorem getLsbD_splice (x v : I64) (lo w : Nat) {i : Nat} (hi : i < 64) :
    (splice x lo w v).getLsbD i =
      if lo ≤ i ∧ i < lo + w then v.getLsbD (i - lo) else x.getLsbD i := by
  unfold splice bitField
  rw [BitVec.getLsbD_or, BitVec.getLsbD_and, BitVec.getLsbD_not, BitVec.getLsbD_shiftLeft,
    BitVec.getLsbD_shiftLeft, getLsbD_lowBits w (-1) (by omega), getLsbD_lowBits w v (by omega),
    getLsbD_ones (by omega)]
  by_cases hlo : i < lo
  · have hout : ¬ (lo ≤ i ∧ i < lo + w) := by omega
    simp [hlo, hi, hout]
  · by_cases hw : i < lo + w
    · have hin : i - lo < w := by omega
      have hle : lo ≤ i := by omega
      simp [hlo, hi, hin, hle, hw]
    · have hout : ¬ i - lo < w := by omega
      simp [hlo, hi, hout, hw]

/-- The bits of a field are those that were put there. -/
theorem extractBits_splice (uns : Bool) (x v : I64) {lo w : Nat} (h : lo + w ≤ 64) :
    extractBits uns (splice x lo w v) lo w = if uns then lowBits w v else signBits w v := by
  have hset : (splice x lo w v >>> lo).setWidth w = v.setWidth w := by
    refine BitVec.eq_of_getLsbD_eq fun i hi => ?_
    rw [BitVec.getLsbD_setWidth, BitVec.getLsbD_setWidth, BitVec.getLsbD_ushiftRight,
      getLsbD_splice x v lo w (by omega), if_pos (by omega), Nat.add_sub_cancel_left]
  unfold extractBits lowBits signBits
  rw [hset]

theorem signBits_lowBits (w : Nat) (v : I64) : signBits w (lowBits w v) = signBits w v := by
  have hset : (lowBits w v).setWidth w = v.setWidth w := by
    refine BitVec.eq_of_getLsbD_eq fun i hi => ?_
    rw [BitVec.getLsbD_setWidth, BitVec.getLsbD_setWidth]
    by_cases h64 : i < 64
    · rw [getLsbD_lowBits w v h64, decide_eq_true hi, Bool.true_and]
    · rw [BitVec.getLsbD_of_ge _ _ (by omega), BitVec.getLsbD_of_ge _ _ (by omega)]
  unfold signBits
  rw [hset]

/-! ## Bytes -/

variable {m : Mem} {A : I64} {o n : Nat}

/-- Bit `i` of a word stands in byte `i / 8`. -/
theorem Mem.getLsbD_word (m : Mem) (A : I64) {i : Nat} (hi : i < 64) :
    (m.read A 8).getLsbD i = (m (A + BitVec.ofNat 64 (i / 8))).getLsbD (i % 8) := by
  rw [Mem.getLsbD_read m 8 A i hi, decide_eq_true (by omega), Bool.true_and]

/-- A narrow load extracts bits of the word. -/
theorem Mem.read_field (h : o + n ≤ 8) :
    m.read (A + BitVec.ofNat 64 o) n = lowBits (8 * n) (m.read A 8 >>> (8 * o)) := by
  refine BitVec.eq_of_getLsbD_eq fun i hi => ?_
  rw [Mem.getLsbD_read m n _ i hi, getLsbD_lowBits _ _ hi, BitVec.getLsbD_ushiftRight]
  by_cases hin : i < 8 * n
  · have hdiv : (8 * o + i) / 8 = o + i / 8 := by omega
    have hmod : (8 * o + i) % 8 = i % 8 := by omega
    rw [Mem.getLsbD_word m A (by omega), hdiv, hmod, BitVec.ofNat_add, ← BitVec.add_assoc]
  · rw [decide_eq_false hin]
    rfl

/-- A narrow store splices bits into the word. -/
theorem Mem.write_field (h : o + n ≤ 8) (v : I64) :
    (m.write (A + BitVec.ofNat 64 o) n (byteOf v)).read A 8 =
      splice (m.read A 8) (8 * o) (8 * n) v := by
  refine BitVec.eq_of_getLsbD_eq fun i hi => ?_
  rw [Mem.getLsbD_word _ A hi, getLsbD_splice _ _ _ _ hi, Mem.getLsbD_word m A hi]
  have hdist : (A + BitVec.ofNat 64 (i / 8) - A).toNat = i / 8 :=
    Extent.sub_base_offset A (by omega)
  by_cases hlo : 8 * o ≤ i
  · have hoff : (A + BitVec.ofNat 64 (i / 8) - (A + BitVec.ofNat 64 o)).toNat = i / 8 - o := by
      rw [Extent.sub_offset (by rw [hdist]; omega), hdist]
    unfold Mem.write
    rw [hoff]
    by_cases hin : i < 8 * o + 8 * n
    · rw [if_pos (by omega), if_pos (by omega)]
      unfold byteOf
      have hbit : 8 * (i / 8 - o) + i % 8 = i - 8 * o := by omega
      rw [BitVec.getLsbD_setWidth, BitVec.getLsbD_ushiftRight, hbit,
        decide_eq_true (Nat.mod_lt _ (by decide)), Bool.true_and]
    · rw [if_neg (by omega), if_neg (by omega)]
  · -- the byte is in front of the field
    have hhead : (⟨A, o⟩ : Extent 64).Has (A + BitVec.ofNat 64 (i / 8)) := by
      unfold Extent.Has
      rw [hdist]
      change i / 8 < o
      omega
    have hout := Extent.apart_offset (b := A) (k := o) (n := n) (by omega) _ hhead
    have hkeep : m.write (A + BitVec.ofNat 64 o) n (byteOf v) (A + BitVec.ofNat 64 (i / 8)) =
        m (A + BitVec.ofNat 64 (i / 8)) := if_neg hout
    rw [hkeep, if_neg (by omega)]

end Hlang.Ir
