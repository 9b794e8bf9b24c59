import Hlang.Runtime.Alloc
import Mathlib.Data.List.Pairwise

/-!
# Hlang.Runtime.HeapStep — what one heap routine does to the heap

A routine that allocates extends the heap by a block with an intact header and
then stores to the payload (`Grown`). `Sound` collects what has to hold of the
heap when a call returns; a fresh block keeps it, and so does the release of a
block that was live before.
-/

namespace Hlang.Runtime

open Hlang.Ir (Mem byteOf)

/-- What a sequence of calls leaves behind it. -/
structure HeapState where
  mem : Mem
  blocks : List Block

/-- The heap as a call finds it. -/
def HeapState.start (s : HeapState) : Heap := { mem := s.mem, blocks := s.blocks }

/-- The blocks are in the address space, apart from each other. -/
structure Layout (bs : List Block) : Prop where
  fits : ∀ b ∈ bs, b.Fits
  apart : bs.Pairwise fun b c => b.bytes.Apart c.bytes

/-- Between calls. -/
structure HeapState.Good (s : HeapState) : Prop where
  layout : Layout s.blocks
  intact : ∀ b ∈ s.blocks, b.Intact s.mem

/-- After a call from `s`. -/
structure Sound (s : HeapState) (W : Heap) : Prop where
  /-- what the call has stored is in the blocks it has allocated -/
  inside : ∀ w ∈ W.wrote, ∃ b ∈ W.allocated, w.Part b.bytes
  layout : Layout W.blocks
  intact : ∀ b ∈ W.blocks, b.Intact W.mem
  /-- outside these blocks memory is as before, up to the headers of released blocks -/
  frame : ∀ x, (∀ b ∈ W.allocated, ¬ b.bytes.Has x) →
    (∀ a ∈ W.freed, ¬ Extent.Has ⟨a, hdrSize⟩ x) → W.mem x = s.mem x
  /-- a block that is not released stays, with its contents -/
  others : ∀ b ∈ s.blocks, b.base ∉ W.freed →
    b ∈ W.blocks ∧ ∀ x, b.bytes.Has x → W.mem x = s.mem x

/-! ## A new block -/

/-- The heap `W'` has one more block than `W` and differs from it only there. -/
structure Grown (W : Heap) (b : Block) (W' : Heap) : Prop where
  blocks : W'.blocks = b :: W.blocks
  allocated : W'.allocated = b :: W.allocated
  freed : W'.freed = W.freed
  frame : ∀ x, ¬ b.bytes.Has x → W'.mem x = W.mem x
  intact : b.Intact W'.mem
  inside : ∀ w ∈ W'.wrote, w ∈ W.wrote ∨ w.Part b.bytes

/-- The heap with the new block `b`, whose payload is not written yet. -/
def Heap.given (W : Heap) (b : Block) : Heap :=
  ({ W with blocks := b :: W.blocks, allocated := b :: W.allocated }.store b.base 8
    (byteOf (clampSize b.request))).store (b.base + 8) 8 (byteOf memMagic)

theorem given_mem (W : Heap) (b : Block) :
    (W.given b).mem = (W.mem.write b.base 8 (byteOf (clampSize b.request))).write (b.base + 8) 8
      (byteOf memMagic) := rfl

theorem mAlloc_some {h : I64} (h0 : h ≠ 0) (size : I64) (W : Heap) :
    mAlloc h size W = (some (Block.ptr ⟨h, size⟩), W.given ⟨h, size⟩) := by
  unfold mAlloc
  rw [if_neg h0]
  rfl

theorem mAlloc_none (size : I64) (W : Heap) : mAlloc 0 size W = (none, W) := rfl

section Grown

variable {W W' : Heap} {b : Block}

theorem sizeField_part (b : Block) : Extent.Part ⟨b.base, 8⟩ b.header := by
  intro x hx
  have hlen : 8 < hdrSize := by decide
  exact Nat.lt_trans hx hlen

theorem magicField_part (b : Block) : Extent.Part ⟨b.base + 8, 8⟩ b.header := by
  have hend : 8 + 8 ≤ hdrSize := by decide
  have hsmall : hdrSize ≤ 2 ^ 64 := by decide
  exact Extent.part_offset (e := b.header) (k := 8) hend hsmall

/-- The two fields of a header are apart. -/
theorem fields_apart (a : I64) : Extent.Apart (⟨a, 8⟩ : Bytes) ⟨a + 8, 8⟩ :=
  Extent.apart_offset (b := a) (k := 8) (by decide)

theorem given_grown (W : Heap) (b : Block) : Grown W b (W.given b) := by
  have hsizePart := (sizeField_part b).trans b.header_part
  have hmagicPart := (magicField_part b).trans b.header_part
  refine ⟨rfl, rfl, rfl, ?_, ?_, ?_⟩
  · intro x hx
    have hsize : ¬ Extent.Has ⟨b.base, 8⟩ x := fun h => hx (hsizePart x h)
    have hmagic : ¬ Extent.Has ⟨b.base + 8, 8⟩ x := fun h => hx (hmagicPart x h)
    rw [given_mem, write_of_not_has hmagic, write_of_not_has hsize]
  · constructor
    · unfold sizeWord
      rw [b.ptr_sub]
      have hkeep : (W.given b).mem.read b.base 8 =
          (W.mem.write b.base 8 (byteOf (clampSize b.request))).read b.base 8 := by
        apply read_congr (by decide)
        intro x hx
        rw [given_mem, write_of_not_has (fields_apart b.base x hx)]
      rw [hkeep]
      exact Ir.Mem.read_write _ _ (BitVec.isLt _)
    · unfold magicWord
      rw [b.ptr_sub, given_mem]
      exact Ir.Mem.read_write _ _ (BitVec.isLt _)
  · intro w hw
    rcases List.mem_cons.mp hw with rfl | hw
    · exact .inr hmagicPart
    · rcases List.mem_cons.mp hw with rfl | hw
      · exact .inr hsizePart
      · exact .inl hw

/-- Stores to the payload. -/
theorem Grown.store (hg : Grown W b W') (hfit : b.Fits) {k n : Nat} (f : Nat → Byte)
    (h : k + n ≤ (clampSize b.request).toNat) :
    Grown W b (W'.store (b.ptr + BitVec.ofNat 64 k) n f) := by
  have hpart := Block.payload_part hfit h
  refine ⟨hg.blocks, hg.allocated, hg.freed, ?_, ?_, ?_⟩
  · intro x hx
    have hout : ¬ Extent.Has ⟨b.ptr + BitVec.ofNat 64 k, n⟩ x := fun h => hx (hpart x h)
    exact (write_of_not_has hout).trans (hg.frame x hx)
  · apply hg.intact.congr
    intro x hx
    exact write_of_not_has fun h' => Block.payload_apart hfit h x h' hx
  · intro w hw
    rcases List.mem_cons.mp hw with rfl | hw
    · exact .inr hpart
    · exact hg.inside w hw

/-- Stores to the payload from its start. -/
theorem Grown.fill (hg : Grown W b W') (hfit : b.Fits) {n : Nat} (f : Nat → Byte)
    (h : n ≤ (clampSize b.request).toNat) : Grown W b (W'.store b.ptr n f) := by
  have hzero : b.ptr + BitVec.ofNat 64 0 = b.ptr := BitVec.add_zero b.ptr
  have hstore := hg.store hfit (k := 0) f (Nat.le_trans (Nat.le_of_eq (Nat.zero_add n)) h)
  rw [hzero] at hstore
  exact hstore

end Grown

/-! ## The heap after a call -/

section Sound

variable {s : HeapState} {W : Heap} {b : Block}

instance : Std.Symm fun b c : Block => b.bytes.Apart c.bytes := ⟨fun _ _ h => h.symm⟩

theorem Layout.apart_of_ne {bs : List Block} (h : Layout bs) {b c : Block} (hb : b ∈ bs)
    (hc : c ∈ bs) (hne : b ≠ c) : b.bytes.Apart c.bytes :=
  h.apart.forall hb hc hne

/-- A call that does nothing. -/
theorem sound_start (hs : s.Good) : Sound s s.start where
  inside := by
    intro w hw
    exact absurd hw List.not_mem_nil
  layout := hs.layout
  intact := hs.intact
  frame := fun _ _ _ => rfl
  others := fun _ hb _ => ⟨hb, fun _ _ => rfl⟩

/-- A call that allocates a block apart from the live ones. -/
theorem Grown.sound (hs : s.Good) (hg : Grown s.start b W) (hfit : b.Fits)
    (hapart : ∀ c ∈ s.blocks, b.bytes.Apart c.bytes) : Sound s W := by
  have hkeep : ∀ c ∈ s.blocks, ∀ x, c.bytes.Has x → W.mem x = s.mem x :=
    fun c hc x hx => hg.frame x fun h => hapart c hc x h hx
  constructor
  · intro w hw
    rcases hg.inside w hw with h | h
    · exact absurd h List.not_mem_nil
    · refine ⟨b, ?_, h⟩
      rw [hg.allocated]
      exact List.mem_cons_self
  · rw [hg.blocks]
    constructor
    · intro c hc
      rcases List.mem_cons.mp hc with rfl | hc
      · exact hfit
      · exact hs.layout.fits c hc
    · exact List.pairwise_cons.mpr ⟨hapart, hs.layout.apart⟩
  · rw [hg.blocks]
    intro c hc
    rcases List.mem_cons.mp hc with rfl | hc
    · exact hg.intact
    · apply (hs.intact c hc).congr
      intro x hx
      exact hkeep c hc x (c.header_part x hx)
  · intro x hnew _
    apply hg.frame
    apply hnew
    rw [hg.allocated]
    exact List.mem_cons_self
  · intro c hc _
    rw [hg.blocks]
    exact ⟨List.mem_cons_of_mem _ hc, hkeep c hc⟩

/-! ## Release -/

/-- The heap after `HC_Free` of a block. -/
def Heap.release (W : Heap) (p : I64) : Heap :=
  { W with mem := W.mem.write (p - 16 + 8) 8 (byteOf 0)
           blocks := W.blocks.filter (·.base ≠ p - 16)
           freed := (p - 16) :: W.freed }

theorem freeBlock_null (W : Heap) : freeBlock 0 W = (some (), W) := rfl

theorem freeBlock_foreign {p : I64} (h0 : p ≠ 0) (h : magicWord W.mem p ≠ memMagic) :
    freeBlock p W = (none, W) := by
  unfold freeBlock
  rw [if_neg h0]
  change (if magicWord W.mem p ≠ memMagic then HeapM.exit else _ : HeapM Unit) W = _
  rw [if_pos h]
  rfl

theorem freeBlock_live {p : I64} (h0 : p ≠ 0) (h : magicWord W.mem p = memMagic) :
    freeBlock p W = (some (), W.release p) := by
  unfold freeBlock
  rw [if_neg h0]
  change (if magicWord W.mem p ≠ memMagic then HeapM.exit else _ : HeapM Unit) W = _
  rw [if_neg (not_not.mpr h)]
  rfl

/-- The release of a block that was live before the call. -/
theorem Sound.release (hW : Sound s W) (hb : b ∈ W.blocks) : Sound s (W.release b.ptr) := by
  have hmagic : ∀ x, ¬ b.header.Has x → (W.release b.ptr).mem x = W.mem x := by
    intro x hx
    have hmem : (W.release b.ptr).mem = W.mem.write (b.ptr - 16 + 8) 8 (byteOf 0) := rfl
    rw [hmem, b.ptr_sub]
    exact write_of_not_has fun h => hx (magicField_part b x h)
  have hrest : ∀ c ∈ W.blocks, c.base ≠ b.base → ∀ x, c.bytes.Has x →
      (W.release b.ptr).mem x = W.mem x := by
    intro c hc hne x hx
    have hbc : b ≠ c := fun h => hne (congrArg Block.base h.symm)
    exact hmagic x fun h => hW.layout.apart_of_ne hb hc hbc x (b.header_part x h) hx
  have hblocks : (W.release b.ptr).blocks = W.blocks.filter (·.base ≠ b.base) := by
    unfold Heap.release
    rw [b.ptr_sub]
  have hmem : ∀ c, c ∈ (W.release b.ptr).blocks ↔ c ∈ W.blocks ∧ c.base ≠ b.base := by
    intro c
    rw [hblocks, List.mem_filter, decide_eq_true_iff]
  have hfreed : (W.release b.ptr).freed = b.base :: W.freed := by
    unfold Heap.release
    rw [b.ptr_sub]
  constructor
  · exact hW.inside
  · constructor
    · intro c hc
      exact hW.layout.fits c ((hmem c).mp hc).1
    · rw [hblocks]
      exact hW.layout.apart.filter _
  · intro c hc
    rcases (hmem c).mp hc with ⟨hc, hne⟩
    apply (hW.intact c hc).congr
    intro x hx
    exact hrest c hc hne x (c.header_part x hx)
  · intro x hnew hold
    rw [hfreed] at hold
    rcases List.forall_mem_cons.mp hold with ⟨hhdr, hold⟩
    exact (hmagic x hhdr).trans (hW.frame x hnew hold)
  · intro c hc hnot
    rw [hfreed] at hnot
    rcases not_or.mp (mt List.mem_cons.mpr hnot) with ⟨hne, hnot⟩
    rcases hW.others c hc hnot with ⟨hc, hsame⟩
    constructor
    · exact (hmem c).mpr ⟨hc, hne⟩
    · intro x hx
      exact (hrest c hc hne x hx).trans (hsame x hx)

end Sound

end Hlang.Runtime
