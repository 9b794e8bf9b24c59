import Hlang.Lib.Lts
import Hlang.Runtime.HeapStep

/-!
# Hlang.Runtime.HeapRun — runs of the heap routines

A program calls the heap routines in any order; between two calls it may change
all of memory but the headers of live blocks. `malloc` answers 0 or a block in
the address space that is apart from the live ones and from what the pointers of
the call refer to.

`HC_CAlloc` hands `memset` the size that `HC_MAlloc` has clamped for itself
only: with a negative size nearly all of memory is cleared. Every other call
keeps the heap, as long as sizes are not negative as they stand.
-/

namespace Hlang.Runtime

open Hlang.Ir (Mem byteOf)

/-! ## Calls -/

inductive Call where
  | mAlloc (size : I64)
  | cAlloc (size : I64)
  | mAllocIdent (src : I64)
  | strNew (s : I64)
  /-- `out` is what the format and the arguments give -/
  | strPrintJoin (dst : I64) (out : List Byte)
  | free (p : I64)

/-- The part of the output that counts as a string. -/
def addText (out : List Byte) : List Byte := out.takeWhile (· ≠ 0)

namespace Call

variable (H : Host)

/-- The routine, where `malloc` answers `h`. -/
def run (h : I64) : Call → HeapM I64
  | .mAlloc size => Runtime.mAlloc h size
  | .cAlloc size => Runtime.cAlloc h size
  | .mAllocIdent src => Runtime.mAllocIdent h src
  | .strNew s => Runtime.strNew H h s
  | .strPrintJoin dst out => Runtime.strPrintJoin H h dst out
  | .free p => do
      freeBlock p
      return 0

/-- The size that is requested from `HC_MAlloc`. -/
def request (m : Mem) : Call → Option I64
  | .mAlloc size => some size
  | .cAlloc size => some size
  | .mAllocIdent src => if src = 0 then none else some (mSize m src)
  | .strNew s => some (BitVec.ofNat 64 (strLen H m s) + 1)
  | .strPrintJoin dst out =>
      if dst = 0 then some (BitVec.ofNat 64 (addText out).length + 1)
      else some (BitVec.ofNat 64 (strLen H m dst) + BitVec.ofNat 64 (addText out).length + 1)
  | .free _ => none

/-- What the pointers of the call refer to. -/
def reads (m : Mem) : Call → List Bytes
  | .mAllocIdent src => [⟨src - 16, hdrSize⟩, ⟨src, (mSize m src).toNat⟩]
  | .strNew s => [⟨s, strLen H m s + 1⟩]
  | .strPrintJoin dst _ => [⟨dst - 16, hdrSize⟩, ⟨dst, strLen H m dst + 1⟩]
  | _ => []

/-- The pointer that the call is to release. -/
def releases : Call → I64
  | .strPrintJoin dst _ => dst
  | .free p => p
  | _ => 0

/-- What the call has put into the block at `p`. -/
def Filled (m m' : Mem) (p : I64) : Call → Prop
  | .cAlloc size => ∀ i, i < (clampSize size).toNat → m' (p + BitVec.ofNat 64 i) = 0
  | .mAllocIdent src => src ≠ 0 → ∀ i, i < (mSize m src).toNat →
      m' (p + BitVec.ofNat 64 i) = m (src + BitVec.ofNat 64 i)
  | _ => True

end Call

/-- What `malloc` promises for the answer `h`. -/
structure Answer (H : Host) (s : HeapState) (c : Call) (h : I64) (n : I64) : Prop where
  fits : Block.Fits ⟨h, n⟩
  live : ∀ b ∈ s.blocks, Extent.Apart (Block.bytes ⟨h, n⟩) b.bytes
  reads : ∀ e ∈ c.reads H s.mem, Extent.Apart (Block.bytes ⟨h, n⟩) e

/-- The bookkeeping is kept by the call `c` from `s`, where `malloc` answers `h`. -/
structure Kept (H : Host) (s : HeapState) (c : Call) (h : I64) : Prop where
  sound : Sound s (c.run H h s.start).2
  /-- `MSize` of the live pointers -/
  sized : ∀ b ∈ (c.run H h s.start).2.blocks,
    mSize (c.run H h s.start).2.mem b.ptr = clampSize b.request
  /-- a new block has the requested size, and the call returns its pointer -/
  returned : ∀ b ∈ (c.run H h s.start).2.allocated,
    c.request H s.mem = some b.request ∧ b ∈ (c.run H h s.start).2.blocks ∧
      ∀ p, (c.run H h s.start).1 = some p → p = b.ptr
  /-- what is released is the live block the call names -/
  released : ∀ a ∈ (c.run H h s.start).2.freed,
    ∃ b ∈ s.blocks, b.base = a ∧ b.ptr = c.releases
  filled : ∀ p, (c.run H h s.start).1 = some p →
    c.Filled s.mem (c.run H h s.start).2.mem p
  null : ∀ p, c = .free p → p = 0 → c.run H h s.start = (some 0, s.start)

/-- `p` is null or a live pointer, or has no magic word in front of it. -/
def Releasable (s : HeapState) (p : I64) : Prop :=
  p ≠ 0 → magicWord s.mem p = memMagic → ∃ b ∈ s.blocks, b.ptr = p

/-- The sizes of the call are not negative as they stand, and it releases no pointer of its own
making. -/
def Call.Fine (H : Host) (s : HeapState) (h : I64) : Call → Prop
  | .mAlloc _ => True
  | .cAlloc size => h ≠ 0 → 0 ≤ size.toInt
  | .mAllocIdent src => h ≠ 0 → 0 ≤ (mSize s.mem src).toInt
  | .strNew a => h ≠ 0 → 0 ≤ (BitVec.ofNat 64 (strLen H s.mem a) + 1).toInt
  | .strPrintJoin dst out => h ≠ 0 →
      if dst = 0 then 0 ≤ (BitVec.ofNat 64 (addText out).length + 1).toInt
      else (BitVec.ofNat 64 (strLen H s.mem dst)).toNat + (addText out).length + 1 < 2 ^ 63 ∧
        Releasable s dst
  | .free p => Releasable s p

/-! ## Sizes -/

theorem clampSize_of_nonneg {n : I64} (h : 0 ≤ n.toInt) : clampSize n = n := by
  unfold clampSize
  rw [if_neg]
  rw [BitVec.slt_eq_decide]
  simpa using h

/-- The clamped size holds as many bytes as the size says only if that is not negative. -/
theorem toNat_le_clampSize (n : I64) : n.toNat ≤ (clampSize n).toNat ↔ 0 ≤ n.toInt := by
  constructor
  · intro h
    by_contra hneg
    have hclamp : clampSize n = 0 := by
      unfold clampSize
      rw [if_pos]
      rw [BitVec.slt_eq_decide]
      simpa using hneg
    have hzero : n.toNat = 0 := by
      rw [hclamp] at h
      exact Nat.le_zero.mp h
    rw [BitVec.toInt_eq_toNat_cond, hzero] at hneg
    exact hneg (by decide)
  · intro h
    rw [clampSize_of_nonneg h]

theorem clampSize_lt (n : I64) : (clampSize n).toNat < 2 ^ 63 := by
  unfold clampSize
  split
  · decide
  · next h =>
    rw [BitVec.slt_eq_decide] at h
    have hnonneg : 0 ≤ n.toInt := by simpa using h
    rw [BitVec.toInt_eq_toNat_cond] at hnonneg
    split at hnonneg <;> omega

/-- A range of the payload is in the block exactly if the size covers it. -/
theorem payload_part_iff {b : Block} (hfit : b.Fits) {k n : Nat}
    (hk : k ≤ (clampSize b.request).toNat) :
    Extent.Part ⟨b.ptr + BitVec.ofNat 64 k, n⟩ b.bytes ↔ k + n ≤ (clampSize b.request).toNat := by
  constructor
  · intro h
    have hptr : b.ptr + BitVec.ofNat 64 k = b.base + BitVec.ofNat 64 (hdrSize + k) := by
      unfold Block.ptr
      rw [BitVec.ofNat_add, BitVec.add_assoc]
    rw [hptr] at h
    have hlen : b.bytes.len = hdrSize + (clampSize b.request).toNat := rfl
    have hend := Extent.Part.end_le (e := b.bytes) (k := hdrSize + k) (by omega)
      (Block.len_lt hfit) h
    omega
  · exact Block.payload_part hfit

/-! ## The heap after each routine -/

section Routines

variable {W : Heap} {h n : I64}

/-- `HC_MAlloc` and a `memcpy` or `memset` of `k` bytes to the start of the payload. -/
def Heap.filled (W : Heap) (b : Block) (k : Nat) (f : Nat → Byte) : Heap :=
  (W.given b).store b.ptr k f

theorem filled_grown {b : Block} (hfit : b.Fits) {k : Nat} (f : Nat → Byte)
    (hk : k ≤ (clampSize b.request).toNat) : Grown W b (W.filled b k f) :=
  (given_grown W b).fill hfit f hk

theorem filled_offset {b : Block} {k i : Nat} {f : Nat → Byte} (hi : i < k) (hlt : i < 2 ^ 64) :
    (W.filled b k f).mem (b.ptr + BitVec.ofNat 64 i) = f i := by
  have hmem : (W.filled b k f).mem = (W.given b).mem.write b.ptr k f := rfl
  rw [hmem, write_offset hi hlt]

theorem cAlloc_some (h0 : h ≠ 0) : cAlloc h n W =
    (some (Block.ptr ⟨h, n⟩), W.filled ⟨h, n⟩ n.toNat fun _ => 0) := by
  unfold cAlloc
  rw [HeapM.bind_some (mAlloc_some h0 n W)]
  rfl

theorem cAlloc_none : cAlloc 0 n W = (none, W) := rfl

theorem mAllocIdent_some (h0 : h ≠ 0) {src : I64} (hsrc : src ≠ 0) :
    mAllocIdent h src W = (some (Block.ptr ⟨h, mSize W.mem src⟩),
      W.filled ⟨h, mSize W.mem src⟩ (mSize W.mem src).toNat fun k =>
        (W.given ⟨h, mSize W.mem src⟩).mem (src + BitVec.ofNat 64 k)) := by
  unfold mAllocIdent
  rw [if_neg hsrc]
  rw [HeapM.bind_mem]
  rw [HeapM.bind_some (mAlloc_some h0 (mSize W.mem src) W)]
  rfl

theorem mAllocIdent_none {src : I64} (hsrc : src ≠ 0) : mAllocIdent 0 src W = (none, W) := by
  unfold mAllocIdent
  rw [if_neg hsrc]
  rfl

theorem strNew_some (H : Host) (h0 : h ≠ 0) {s : I64}
    (hn : n = BitVec.ofNat 64 (strLen H W.mem s) + 1) :
    strNew H h s W = (some (Block.ptr ⟨h, n⟩),
      W.filled ⟨h, n⟩ n.toNat (strByte s (W.given ⟨h, n⟩).mem)) := by
  subst hn
  unfold strNew
  rw [HeapM.bind_mem]
  rw [HeapM.bind_some (mAlloc_some h0 _ W)]
  rfl

theorem textNew_some (h0 : h ≠ 0) {add : List Byte} (hn : n = BitVec.ofNat 64 add.length + 1) :
    textNew h add W = (some (Block.ptr ⟨h, n⟩),
      W.filled ⟨h, n⟩ n.toNat fun k => add.getD k 0) := by
  subst hn
  unfold textNew
  rw [HeapM.bind_some (mAlloc_some h0 _ W)]
  rfl

/-- The heap of `HC_StrPrintJoin` before it releases `dst`. -/
def Heap.joined (W : Heap) (b : Block) (dst dl : I64) (add : List Byte) : Heap :=
  (W.filled b dl.toNat fun k => (W.given b).mem (dst + BitVec.ofNat 64 k)).store (b.ptr + dl)
    (add.length + 1) fun k => add.getD k 0

theorem strPrintJoin_some (H : Host) (h0 : h ≠ 0) {dst : I64} (hdst : dst ≠ 0) (out : List Byte)
    {dl : I64} (hdl : dl = BitVec.ofNat 64 (strLen H W.mem dst))
    (hn : n = dl + BitVec.ofNat 64 (addText out).length + 1) :
    strPrintJoin H h dst out W =
      ((freeBlock dst (W.joined ⟨h, n⟩ dst dl (addText out))).1.map fun _ => Block.ptr ⟨h, n⟩,
        (freeBlock dst (W.joined ⟨h, n⟩ dst dl (addText out))).2) := by
  subst hdl hn
  unfold strPrintJoin
  dsimp only
  rw [if_neg hdst, HeapM.bind_mem, HeapM.bind_some (mAlloc_some h0 _ W)]
  exact HeapM.bind_pure (freeBlock dst) _ (W.joined _ dst _ (addText out))

end Routines

/-! ## One call -/

section Step

variable {H : Host} {s : HeapState} {c : Call} {h n : I64} {W : Heap} {r : Option I64}

/-- A call is kept by what holds of the heap it leaves. -/
theorem Kept.of_sound (hrun : c.run H h s.start = (r, W)) (hsound : Sound s W)
    (hreturned : ∀ b ∈ W.allocated, c.request H s.mem = some b.request ∧ b ∈ W.blocks ∧
      ∀ p, r = some p → p = b.ptr)
    (hreleased : ∀ a ∈ W.freed, ∃ b ∈ s.blocks, b.base = a ∧ b.ptr = c.releases)
    (hfilled : ∀ p, r = some p → c.Filled s.mem W.mem p) : Kept H s c h := by
  constructor
  · rw [hrun]
    exact hsound
  · rw [hrun]
    intro b hb
    exact (hsound.intact b hb).mSize (hsound.layout.fits b hb)
  · rw [hrun]
    exact hreturned
  · rw [hrun]
    exact hreleased
  · rw [hrun]
    exact hfilled
  · intro p hc hp
    subst hc hp
    rfl

/-- A call that leaves the heap alone. -/
theorem Kept.of_start (hs : s.Good) (hrun : c.run H h s.start = (r, s.start))
    (hfilled : ∀ p, r = some p → c.Filled s.mem s.mem p) : Kept H s c h := by
  apply Kept.of_sound hrun (sound_start hs) _ _ hfilled
  · intro b hb
    exact absurd hb List.not_mem_nil
  · intro a ha
    exact absurd ha List.not_mem_nil

/-- A call that allocates one block and stores to it. -/
theorem Kept.of_grown (hs : s.Good) (hans : Answer H s c h n)
    (hreq : c.request H s.mem = some n) (hg : Grown s.start ⟨h, n⟩ W)
    (hrun : c.run H h s.start = (some (Block.ptr ⟨h, n⟩), W))
    (hfilled : c.Filled s.mem W.mem (Block.ptr ⟨h, n⟩)) : Kept H s c h := by
  apply Kept.of_sound hrun (hg.sound hs hans.fits hans.live)
  · intro b hb
    rw [hg.allocated] at hb
    rcases List.mem_cons.mp hb with rfl | hb
    · refine ⟨hreq, ?_, ?_⟩
      · rw [hg.blocks]
        exact List.mem_cons_self
      · intro p hp
        exact (Option.some.inj hp).symm
    · exact absurd hb List.not_mem_nil
  · intro a ha
    rw [hg.freed] at ha
    exact absurd ha List.not_mem_nil
  · intro p hp
    rw [← Option.some.inj hp]
    exact hfilled

/-- A store to the payload that is inside the new block is no longer than the size. -/
theorem Kept.size_of_store (hkept : Kept H s c h) (hfit : Block.Fits ⟨h, n⟩)
    (hrun : (c.run H h s.start).2 = W) (halloc : W.allocated = [⟨h, n⟩]) {k m : Nat}
    (hk : k ≤ (clampSize n).toNat)
    (hw : ⟨Block.ptr ⟨h, n⟩ + BitVec.ofNat 64 k, m⟩ ∈ W.wrote) : k + m ≤ (clampSize n).toNat := by
  have hinside := hkept.sound.inside
  rw [hrun] at hinside
  rcases hinside _ hw with ⟨b, hb, hpart⟩
  rw [halloc, List.mem_singleton] at hb
  subst hb
  exact (payload_part_iff hfit hk).mp hpart

/-- A call that fills the payload from its start keeps the heap exactly if the payload is that
long. -/
theorem Kept.filled_iff (hs : s.Good) (hans : Answer H s c h n)
    (hreq : c.request H s.mem = some n) {f : Nat → Byte}
    (hrun : c.run H h s.start =
      (some (Block.ptr ⟨h, n⟩), s.start.filled ⟨h, n⟩ n.toNat f))
    (hfilled : 0 ≤ n.toInt →
      c.Filled s.mem (s.start.filled ⟨h, n⟩ n.toNat f).mem (Block.ptr ⟨h, n⟩)) :
    Kept H s c h ↔ 0 ≤ n.toInt := by
  rw [← toNat_le_clampSize]
  constructor
  · intro hkept
    have hzero : Block.ptr ⟨h, n⟩ + BitVec.ofNat 64 0 = Block.ptr ⟨h, n⟩ := BitVec.add_zero _
    have hwrote : ⟨Block.ptr ⟨h, n⟩ + BitVec.ofNat 64 0, n.toNat⟩ ∈
        (s.start.filled ⟨h, n⟩ n.toNat f).wrote := by
      rw [hzero]
      exact List.mem_cons_self
    have hend := hkept.size_of_store hans.fits (congrArg Prod.snd hrun) rfl (Nat.zero_le _) hwrote
    rwa [Nat.zero_add] at hend
  · intro hlen
    have hg := filled_grown (W := s.start) hans.fits f hlen
    exact Kept.of_grown hs hans hreq hg hrun (hfilled ((toNat_le_clampSize n).mp hlen))

/-- A call whose `malloc` fails does nothing but end the program. -/
theorem Kept.of_failed (hs : s.Good) (hrun : c.run H h s.start = (none, s.start)) : Kept H s c h :=
  Kept.of_start hs hrun fun _ hp => nomatch hp

theorem mAlloc_kept (hs : s.Good) {size : I64}
    (hans : h ≠ 0 → Answer H s (.mAlloc size) h size) : Kept H s (.mAlloc size) h := by
  by_cases h0 : h = 0
  · subst h0
    exact Kept.of_failed hs rfl
  · exact Kept.of_grown hs (hans h0) rfl (given_grown s.start ⟨h, size⟩) (mAlloc_some h0 _ _) trivial

theorem cAlloc_kept_iff (hs : s.Good) {size : I64}
    (hans : h ≠ 0 → Answer H s (.cAlloc size) h size) :
    Kept H s (.cAlloc size) h ↔ (h ≠ 0 → 0 ≤ size.toInt) := by
  by_cases h0 : h = 0
  · subst h0
    exact ⟨fun _ h => absurd rfl h, fun _ => Kept.of_failed hs rfl⟩
  · rw [Kept.filled_iff hs (hans h0) rfl (cAlloc_some h0)]
    · exact ⟨fun h _ => h, fun h => h h0⟩
    · intro hsize i hi
      rw [clampSize_of_nonneg hsize] at hi
      exact filled_offset hi (Nat.lt_trans hi size.isLt)

theorem mAllocIdent_kept_iff (hs : s.Good) {src : I64}
    (hans : src ≠ 0 → h ≠ 0 → Answer H s (.mAllocIdent src) h (mSize s.mem src)) :
    Kept H s (.mAllocIdent src) h ↔ (h ≠ 0 → 0 ≤ (mSize s.mem src).toInt) := by
  by_cases hsrc : src = 0
  · subst hsrc
    have hrun : (Call.mAllocIdent 0).run H h s.start = (some 0, s.start) := rfl
    have hkept := Kept.of_start hs hrun fun _ _ hne => absurd rfl hne
    exact ⟨fun _ _ => le_refl _, fun _ => hkept⟩
  · by_cases h0 : h = 0
    · subst h0
      exact ⟨fun _ h => absurd rfl h, fun _ => Kept.of_failed hs (mAllocIdent_none hsrc)⟩
    · have hans := hans hsrc h0
      have hreq : (Call.mAllocIdent src).request H s.mem = some (mSize s.mem src) := if_neg hsrc
      rw [Kept.filled_iff hs hans hreq (mAllocIdent_some h0 hsrc)]
      · exact ⟨fun h _ => h, fun h => h h0⟩
      · intro _ _ i hi
        have hlt : i < 2 ^ 64 := Nat.lt_trans hi (BitVec.isLt _)
        refine (filled_offset hi hlt).trans ?_
        -- the source is not in the new block
        apply (given_grown s.start ⟨h, mSize s.mem src⟩).frame
        intro hnew
        have happ := hans.reads ⟨src, (mSize s.mem src).toNat⟩
          (List.mem_cons_of_mem _ (List.mem_singleton.mpr rfl))
        exact happ _ hnew ((Extent.has_offset hlt).mpr hi)

theorem strNew_kept_iff (hs : s.Good) {a : I64}
    (hans : h ≠ 0 → Answer H s (.strNew a) h (BitVec.ofNat 64 (strLen H s.mem a) + 1)) :
    Kept H s (.strNew a) h ↔
      (h ≠ 0 → 0 ≤ (BitVec.ofNat 64 (strLen H s.mem a) + 1).toInt) := by
  by_cases h0 : h = 0
  · subst h0
    exact ⟨fun _ h => absurd rfl h, fun _ => Kept.of_failed hs rfl⟩
  · rw [Kept.filled_iff hs (hans h0) rfl (strNew_some H h0 rfl) fun _ => trivial]
    exact ⟨fun h _ => h, fun h => h h0⟩

/-- `HC_Free` keeps the heap exactly if what it finds a header for is live. -/
theorem free_kept_iff (hs : s.Good) {p : I64} :
    Kept H s (.free p) h ↔ Releasable s p := by
  have hrun : (Call.free p).run H h s.start =
      ((freeBlock p s.start).1.map fun _ => 0, (freeBlock p s.start).2) :=
    HeapM.bind_pure (freeBlock p) 0 s.start
  constructor
  · intro hkept hp hmagic
    have hfreed := hkept.released
    rw [hrun, freeBlock_live (W := s.start) hp hmagic] at hfreed
    have hmem : p - 16 ∈ (s.start.release p).freed := List.mem_cons_self
    rcases hfreed (p - 16) hmem with ⟨b, hb, _, hptr⟩
    exact ⟨b, hb, hptr⟩
  · intro hlive
    by_cases hp : p = 0
    · subst hp
      exact Kept.of_start hs hrun fun _ _ => trivial
    · by_cases hmagic : magicWord s.mem p = memMagic
      · rcases hlive hp hmagic with ⟨b, hb, hptr⟩
        rw [freeBlock_live (W := s.start) hp hmagic] at hrun
        subst hptr
        apply Kept.of_sound hrun ((sound_start hs).release hb)
        · intro c hc
          exact absurd hc List.not_mem_nil
        · intro a ha
          have hbase : a = b.ptr - 16 := List.mem_singleton.mp ha
          exact ⟨b, hb, by rw [hbase, b.ptr_sub], rfl⟩
        · exact fun _ _ => trivial
      · rw [freeBlock_foreign (W := s.start) hp hmagic] at hrun
        exact Kept.of_failed hs hrun

/-- `HC_Free` stores only the cleared magic word. -/
theorem freeBlock_wrote (p : I64) (W : Heap) :
    (freeBlock p W).2.wrote = W.wrote ∧ (freeBlock p W).2.allocated = W.allocated := by
  by_cases hp : p = 0
  · subst hp
    exact ⟨rfl, rfl⟩
  · by_cases hmagic : magicWord W.mem p = memMagic
    · rw [freeBlock_live hp hmagic]
      exact ⟨rfl, rfl⟩
    · rw [freeBlock_foreign hp hmagic]
      exact ⟨rfl, rfl⟩

/-- The copy of the old string and the new text fill the payload. -/
theorem joined_grown {b : Block} (hfit : b.Fits) {dst dl : I64} {add : List Byte}
    (hlen : dl.toNat + (add.length + 1) ≤ (clampSize b.request).toNat) :
    Grown W b (W.joined b dst dl add) := by
  have hdl : dl = BitVec.ofNat 64 dl.toNat := Extent.eq_ofNat_toNat dl
  have hcopy := filled_grown (W := W) hfit
    (fun k => (W.given b).mem (dst + BitVec.ofNat 64 k)) (k := dl.toNat) (by omega)
  have htext := hcopy.store hfit (fun k => add.getD k 0) hlen
  rw [← hdl] at htext
  exact htext

/-- The size that `HC_StrPrintJoin` requests. -/
theorem toNat_joinedSize {dl n : I64} {k : Nat} (hn : n = dl + BitVec.ofNat 64 k + 1)
    (hlt : dl.toNat + k + 1 < 2 ^ 63) : (clampSize n).toNat = dl.toNat + k + 1 := by
  have hval : n.toNat = dl.toNat + k + 1 := by
    have hone : (1 : I64).toNat = 1 := rfl
    rw [hn, BitVec.toNat_add, BitVec.toNat_add, BitVec.toNat_ofNat, hone]
    omega
  have hnonneg : 0 ≤ n.toInt := by
    rw [BitVec.toInt_eq_toNat_cond, if_pos (by omega)]
    exact Int.natCast_nonneg _
  rw [clampSize_of_nonneg hnonneg, hval]

/-- A block that is apart from the header in front of `p` leaves its magic word. -/
theorem Grown.magicWord_eq {b : Block} (hg : Grown s.start b W) {p : I64}
    (hapart : b.bytes.Apart ⟨p - 16, hdrSize⟩) : magicWord W.mem p = magicWord s.mem p := by
  unfold magicWord
  apply read_congr (by decide)
  intro x hx
  apply hg.frame
  intro hnew
  exact hapart x hnew (magicField_part ⟨p - 16, 0⟩ x hx)

theorem joinedText_kept_iff (hs : s.Good) {dst : I64} {out : List Byte} (hdst : dst ≠ 0)
    (hn : n = BitVec.ofNat 64 (strLen H s.mem dst) + BitVec.ofNat 64 (addText out).length + 1)
    (h0 : h ≠ 0) (hans : Answer H s (.strPrintJoin dst out) h n) :
    Kept H s (.strPrintJoin dst out) h ↔
      (BitVec.ofNat 64 (strLen H s.mem dst)).toNat + (addText out).length + 1 < 2 ^ 63 ∧
        Releasable s dst := by
  have hrun := strPrintJoin_some (W := s.start) H h0 hdst out rfl hn
  have hreq : (Call.strPrintJoin dst out).request H s.mem = some n := by
    rw [hn]
    exact if_neg hdst
  change Call.run H h (.strPrintJoin dst out) s.start = _ at hrun
  have hstart : s.start.mem = s.mem := rfl
  rw [hstart] at hrun
  generalize BitVec.ofNat 64 (strLen H s.mem dst) = dl at hrun hn ⊢
  generalize haddText : addText out = add at hrun hn ⊢
  have hwrote := freeBlock_wrote dst (s.start.joined ⟨h, n⟩ dst dl add)
  have happ := hans.reads ⟨dst - 16, hdrSize⟩ List.mem_cons_self
  constructor
  · intro hkept
    have halloc := hwrote.2.trans (rfl : (s.start.joined ⟨h, n⟩ dst dl add).allocated = [⟨h, n⟩])
    have hdl : dl = BitVec.ofNat 64 dl.toNat := Extent.eq_ofNat_toNat dl
    have hzero : Block.ptr ⟨h, n⟩ + BitVec.ofNat 64 0 = Block.ptr ⟨h, n⟩ := BitVec.add_zero _
    have hcopy : ⟨Block.ptr ⟨h, n⟩ + BitVec.ofNat 64 0, dl.toNat⟩ ∈
        (freeBlock dst (s.start.joined ⟨h, n⟩ dst dl add)).2.wrote := by
      rw [hwrote.1, hzero]
      exact List.mem_cons_of_mem _ List.mem_cons_self
    have htext : ⟨Block.ptr ⟨h, n⟩ + BitVec.ofNat 64 dl.toNat, add.length + 1⟩ ∈
        (freeBlock dst (s.start.joined ⟨h, n⟩ dst dl add)).2.wrote := by
      rw [hwrote.1, ← hdl]
      exact List.mem_cons_self
    -- first the copy fits, then the text behind it
    have hlen := hkept.size_of_store hans.fits (congrArg Prod.snd hrun) halloc (Nat.zero_le _) hcopy
    rw [Nat.zero_add] at hlen
    have hend := hkept.size_of_store hans.fits (congrArg Prod.snd hrun) halloc hlen htext
    have hsmall := clampSize_lt n
    constructor
    · omega
    · intro _ hmagic
      have hg : Grown s.start ⟨h, n⟩ (s.start.joined ⟨h, n⟩ dst dl add) :=
        joined_grown hans.fits hend
      have hlive := freeBlock_live hdst ((hg.magicWord_eq happ).trans hmagic)
      have hreleased := hkept.released
      rw [hrun, hlive] at hreleased
      have hmem : dst - 16 ∈ ((s.start.joined ⟨h, n⟩ dst dl add).release dst).freed :=
        List.mem_cons_self
      rcases hreleased (dst - 16) hmem with ⟨b, hb, _, hptr⟩
      exact ⟨b, hb, hptr⟩
  · rintro ⟨hlt, hlive⟩
    have hsize := toNat_joinedSize hn hlt
    have hg : Grown s.start ⟨h, n⟩ (s.start.joined ⟨h, n⟩ dst dl add) :=
      joined_grown hans.fits (Nat.le_of_eq hsize.symm)
    have hsound := hg.sound hs hans.fits hans.live
    by_cases hmagic : magicWord s.mem dst = memMagic
    · rcases hlive hdst hmagic with ⟨b, hb, hptr⟩
      subst hptr
      rw [freeBlock_live hdst ((hg.magicWord_eq happ).trans hmagic)] at hrun
      have hmem : b ∈ (s.start.joined ⟨h, n⟩ b.ptr dl add).blocks := List.mem_cons_of_mem _ hb
      apply Kept.of_sound hrun (hsound.release hmem)
      · intro c hc
        have hnew : c = ⟨h, n⟩ := List.mem_singleton.mp hc
        subst hnew
        refine ⟨hreq, ?_, fun p hp => (Option.some.inj hp).symm⟩
        apply List.mem_filter.mpr
        refine ⟨List.mem_cons_self, decide_eq_true ?_⟩
        rw [b.ptr_sub]
        intro hbase
        exact Block.base_ne (hans.live b hb) hbase
      · intro a ha
        have hbase : a = b.ptr - 16 := List.mem_singleton.mp ha
        exact ⟨b, hb, by rw [hbase, b.ptr_sub], rfl⟩
      · exact fun _ _ => trivial
    · rw [freeBlock_foreign hdst fun h => hmagic ((hg.magicWord_eq happ).symm.trans h)] at hrun
      apply Kept.of_sound hrun hsound
      · intro c hc
        have hnew : c = ⟨h, n⟩ := List.mem_singleton.mp hc
        subst hnew
        exact ⟨hreq, List.mem_cons_self, fun p hp => nomatch hp⟩
      · intro a ha
        exact absurd ha List.not_mem_nil
      · exact fun _ _ => trivial

theorem strPrintJoin_none {dst : I64} {out : List Byte} : strPrintJoin H 0 dst out W = (none, W) := by
  unfold strPrintJoin
  dsimp only
  split
  · rfl
  · rfl

theorem strPrintJoin_kept_iff (hs : s.Good) {dst : I64} {out : List Byte}
    (hans : ∀ n, (Call.strPrintJoin dst out).request H s.mem = some n → h ≠ 0 →
      Answer H s (.strPrintJoin dst out) h n) :
    Kept H s (.strPrintJoin dst out) h ↔ (h ≠ 0 →
      if dst = 0 then 0 ≤ (BitVec.ofNat 64 (addText out).length + 1).toInt
      else (BitVec.ofNat 64 (strLen H s.mem dst)).toNat + (addText out).length + 1 < 2 ^ 63 ∧
        Releasable s dst) := by
  by_cases h0 : h = 0
  · subst h0
    exact ⟨fun _ h => absurd rfl h, fun _ => Kept.of_failed hs strPrintJoin_none⟩
  · by_cases hdst : dst = 0
    · subst hdst
      have hreq : (Call.strPrintJoin 0 out).request H s.mem =
          some (BitVec.ofNat 64 (addText out).length + 1) := rfl
      have hrun : (Call.strPrintJoin 0 out).run H h s.start = textNew h (addText out) s.start := rfl
      rw [Kept.filled_iff hs (hans _ hreq h0) hreq (hrun.trans (textNew_some h0 rfl))
        fun _ => trivial, if_pos rfl]
      exact ⟨fun h _ => h, fun h => h h0⟩
    · rw [joinedText_kept_iff hs hdst rfl h0 (hans _ (if_neg hdst) h0), if_neg hdst]
      exact ⟨fun h _ => h, fun h => h h0⟩

end Step

/-- One call keeps the heap exactly if it is fine. -/
theorem kept_iff_fine {H : Host} {s : HeapState} {c : Call} {h : I64} (hs : s.Good)
    (hans : ∀ n, c.request H s.mem = some n → h ≠ 0 → Answer H s c h n) :
    Kept H s c h ↔ c.Fine H s h := by
  cases c with
  | mAlloc size => exact ⟨fun _ => trivial, fun _ => mAlloc_kept hs (hans size rfl)⟩
  | cAlloc size => exact cAlloc_kept_iff hs (hans size rfl)
  | mAllocIdent src =>
      apply mAllocIdent_kept_iff hs
      intro hsrc
      exact hans (mSize s.mem src) (if_neg hsrc)
  | strNew a => exact strNew_kept_iff hs (hans _ rfl)
  | strPrintJoin dst out => exact strPrintJoin_kept_iff hs hans
  | free p => exact free_kept_iff hs

/-! ## Runs -/

/-- A program that uses the heap. -/
structure HeapProgram where
  heap : HeapState
  /-- a routine has ended it -/
  stopped : Bool

inductive HeapEvent where
  /-- a call, and the answer of `malloc` -/
  | call (c : Call) (h : I64)
  /-- anything else the program does -/
  | other

/-- The text of `HC_StrPrintJoin` is what the formatter prints. -/
def Call.Formatted (H : Host) (m : Mem) : Call → Prop
  | .strPrintJoin _ out =>
      ∃ V fmt k, (hcFormat (H.over m) V fmt k).pc = .done ∧ (hcFormat (H.over m) V fmt k).out = out
  | _ => True

/-- The calls a program makes, one after the other, from an empty heap. -/
def heapRuns (H : Host) : Lts HeapProgram HeapEvent where
  init s := s.heap.blocks = [] ∧ s.stopped = false
  step s e s' := s.stopped = false ∧
    match e with
    | .call c h =>
        c.Formatted H s.heap.mem ∧
        (∀ n, c.request H s.heap.mem = some n → h ≠ 0 → Answer H s.heap c h n) ∧
        s' = ⟨⟨(c.run H h s.heap.start).2.mem, (c.run H h s.heap.start).2.blocks⟩,
          (c.run H h s.heap.start).1.isNone⟩
    | .other =>
        s'.stopped = false ∧ s'.heap.blocks = s.heap.blocks ∧
        ∀ b ∈ s.heap.blocks, ∀ x, b.header.Has x → s'.heap.mem x = s.heap.mem x

/-- The step keeps the bookkeeping, if it is a call. -/
def EntryKept (H : Host) : Lts.Entry HeapProgram HeapEvent → Prop
  | (s, .call c h, _) => Kept H s.heap c h
  | (_, .other, _) => True

/-- The step is fine, if it is a call. -/
def EntryFine (H : Host) : Lts.Entry HeapProgram HeapEvent → Prop
  | (s, .call c h, _) => c.Fine H s.heap h
  | (_, .other, _) => True

/-- In every run the calls keep the bookkeeping of the heap exactly if they are fine. -/
theorem heap_kept_iff (H : Host) {hist : List (Lts.Entry HeapProgram HeapEvent)} {s : HeapProgram}
    (hrun : (heapRuns H).Run hist s) :
    (∀ e ∈ hist, EntryKept H e) ↔ ∀ e ∈ hist, EntryFine H e := by
  apply hrun.forall_iff (I := fun s => s.heap.Good)
  · rintro s ⟨hblocks, _⟩
    constructor
    · rw [hblocks]
      exact ⟨fun b hb => absurd hb List.not_mem_nil, List.Pairwise.nil⟩
    · rw [hblocks]
      exact fun b hb => absurd hb List.not_mem_nil
  · rintro s (⟨c, h⟩ | _) s' hs ⟨_, hstep⟩
    · exact kept_iff_fine hs hstep.2.1
    · exact Iff.rfl
  · rintro s (⟨c, h⟩ | _) s' hs ⟨_, hstep⟩ hkept
    · rcases hstep with ⟨_, _, rfl⟩
      exact ⟨hkept.sound.layout, hkept.sound.intact⟩
    · rcases hstep with ⟨_, hblocks, hheaders⟩
      constructor
      · rw [hblocks]
        exact hs.layout
      · rw [hblocks]
        exact fun b hb => (hs.intact b hb).congr (hheaders b hb)

/-- A program before its first call. -/
def emptyHeap : HeapProgram := ⟨⟨fun _ => 0, []⟩, false⟩

/-- The program after its first call `CAlloc(size)`, where `malloc` answers 4096. -/
def afterCAlloc (size : I64) : HeapProgram :=
  ⟨⟨(cAlloc 4096 size emptyHeap.heap.start).2.mem, (cAlloc 4096 size emptyHeap.heap.start).2.blocks⟩,
    false⟩

/-- The run of that call. -/
theorem cAlloc_run (H : Host) (size : I64) :
    (heapRuns H).Run [(emptyHeap, .call (.cAlloc size) 4096, afterCAlloc size)]
      (afterCAlloc size) := by
  have hstart : (heapRuns H).Run [] emptyHeap := .start ⟨rfl, rfl⟩
  refine hstart.step ⟨rfl, trivial, ?_, rfl⟩
  intro n _ _
  constructor
  · have hlt := clampSize_lt n
    have hbase : (4096 : I64).toNat = 4096 := rfl
    change (4096 : I64).toNat + (hdrSize + (clampSize n).toNat) < 2 ^ 64
    unfold hdrSize
    omega
  · intro b hb
    exact absurd hb List.not_mem_nil
  · intro e he
    exact absurd he List.not_mem_nil

/-- `CAlloc(16)`. -/
theorem cAlloc_sixteen_kept :
    EntryKept Host.bare (emptyHeap, HeapEvent.call (.cAlloc 16) 4096, afterCAlloc 16) := by
  refine (heap_kept_iff Host.bare (cAlloc_run Host.bare 16)).mpr ?_ _ (List.mem_singleton.mpr rfl)
  intro e he
  have he := List.mem_singleton.mp he
  subst he
  intro _
  decide

/-- `CAlloc(-1)`: `memset` clears all of memory but one byte. -/
theorem cAlloc_negative_not_kept :
    ¬ ∀ hist s, (heapRuns Host.bare).Run hist s → ∀ e ∈ hist, EntryKept Host.bare e := by
  intro h
  have hkept : Kept Host.bare emptyHeap.heap (.cAlloc (-1)) 4096 :=
    h _ _ (cAlloc_run Host.bare (-1)) _ (List.mem_singleton.mpr rfl)
  have hpart := hkept.sound.inside ⟨4112, (-1 : I64).toNat⟩ List.mem_cons_self
  rcases hpart with ⟨b, hb, hpart⟩
  have hb := List.mem_singleton.mp hb
  subst hb
  -- the first byte behind the header is not in the block
  have hfirst : ¬ Extent.Has (Block.bytes ⟨4096, -1⟩) 4112 := by decide
  exact hfirst (hpart 4112 (by decide))

end Hlang.Runtime
