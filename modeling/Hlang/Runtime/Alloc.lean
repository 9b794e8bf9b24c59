import Hlang.Lib.Extent
import Hlang.Ir.Events
import Hlang.Runtime.FormatScan

/-!
# Hlang.Runtime.Alloc — the heap routines of the runtime

`HC_MAlloc` and the routines that call it put a header in front of what they
return: the size of the block and a magic word. `malloc` itself is outside: its
answer is an argument of the routines, and `Fresh` is what it promises.

A routine that returns leaves `some` result, one that ends in `exit(1)` leaves
`none`. The heap also records what the running call has done: the blocks it has
allocated, the addresses it has given to `free`, each with the magic word behind
it cleared, and the ranges it has stored to.
-/

namespace Hlang.Runtime

open Hlang.Ir (Mem byteOf)

/-- A range of bytes. -/
abbrev Bytes := Extent 64

/-! ## Blocks -/

/-- `if (size < 0) size = 0;` -/
def clampSize (size : I64) : I64 := if size.slt 0 then 0 else size

/-- `sizeof(HCMemHdr)`. -/
def hdrSize : Nat := 16

/-- `HC_MEM_MAGIC`. -/
def memMagic : I64 := 0x686F6C79684D454D

/-- A block that `malloc` has given to `HC_MAlloc`, and the size that was requested. -/
structure Block where
  base : I64
  request : I64
deriving DecidableEq

namespace Block

variable (b : Block)

/-- The argument of `malloc`. -/
def len : Nat := hdrSize + (clampSize b.request).toNat

/-- The bytes of the block. -/
def bytes : Bytes := ⟨b.base, b.len⟩

/-- The header. -/
def header : Bytes := ⟨b.base, hdrSize⟩

/-- The pointer that the program gets. -/
def ptr : I64 := b.base + BitVec.ofNat 64 hdrSize

/-- The block ends before the end of the address space. -/
def Fits : Prop := b.base.toNat + b.len < 2 ^ 64

end Block

/-! ## The heap -/

structure Heap where
  mem : Mem
  /-- the blocks that `malloc` has given and `free` has not taken back -/
  blocks : List Block
  allocated : List Block := []
  freed : List I64 := []
  wrote : List Bytes := []

/-- Store `f k` at `a + k`, for `k < n`. -/
def Heap.store (W : Heap) (a : I64) (n : Nat) (f : Nat → Byte) : Heap :=
  { W with mem := W.mem.write a n f, wrote := ⟨a, n⟩ :: W.wrote }

/-- A routine of the runtime. -/
def HeapM (α : Type) := Heap → Option α × Heap

instance : Monad HeapM where
  pure x := fun W => (some x, W)
  bind m k := fun W =>
    match m W with
    | (none, W') => (none, W')
    | (some x, W') => k x W'

namespace HeapM

/-- `exit(1)`. -/
def exit {α : Type} : HeapM α := fun W => (none, W)

def mem : HeapM Mem := fun W => (some W.mem, W)

def store (a : I64) (n : Nat) (f : Nat → Byte) : HeapM Unit := fun W => (some (), W.store a n f)

/-- A routine that goes on after its first part. -/
theorem bind_some {α β : Type} {m : HeapM α} {k : α → HeapM β} {W W' : Heap} {x : α}
    (h : m W = (some x, W')) : (m >>= k) W = k x W' := by
  change (match m W with
    | (none, W') => (none, W')
    | (some x, W') => k x W') = _
  rw [h]

theorem bind_mem {α : Type} (k : Mem → HeapM α) (W : Heap) :
    (HeapM.mem >>= k) W = k W.mem W := rfl

/-- A routine that ends in its first part. -/
theorem bind_none {α β : Type} {m : HeapM α} {k : α → HeapM β} {W W' : Heap}
    (h : m W = (none, W')) : (m >>= k) W = (none, W') := by
  change (match m W with
    | (none, W') => (none, W')
    | (some x, W') => k x W') = _
  rw [h]

/-- A routine that goes on with its result. -/
theorem bind_pure {α β : Type} (m : HeapM α) (x : β) (W : Heap) :
    (m >>= fun _ => pure x) W = ((m W).1.map fun _ => x, (m W).2) := by
  rcases h : m W with ⟨r, W'⟩
  cases r with
  | none => exact bind_none h
  | some y => exact bind_some h

/-- `malloc`, for a block whose address is `h`. -/
def malloc (h request : I64) : HeapM Unit := fun W =>
  (some (), { W with blocks := ⟨h, request⟩ :: W.blocks, allocated := ⟨h, request⟩ :: W.allocated })

/-- `h->magic = 0;` for the header in front of `p`. -/
def unmark (p : I64) : HeapM Unit := fun W =>
  (some (), { W with mem := W.mem.write (p - 16 + 8) 8 (byteOf 0) })

/-- `free`. -/
def free (h : I64) : HeapM Unit := fun W =>
  (some (), { W with blocks := W.blocks.filter (·.base ≠ h), freed := h :: W.freed })

end HeapM

/-! ## The routines -/

/-- `h->size` of the header in front of `p`. -/
def sizeWord (m : Mem) (p : I64) : I64 := m.read (p - 16) 8

/-- `h->magic` of the header in front of `p`. -/
def magicWord (m : Mem) (p : I64) : I64 := m.read (p - 16 + 8) 8

/-- `HC_MSize`. -/
def mSize (m : Mem) (p : I64) : I64 :=
  if p = 0 then 0 else if magicWord m p = memMagic then sizeWord m p else 0

/-- `HC_MAlloc`, where `malloc` answers `h`. -/
def mAlloc (h size : I64) : HeapM I64 := do
  if h = 0 then HeapM.exit
  else
    HeapM.malloc h size
    HeapM.store h 8 (byteOf (clampSize size))
    HeapM.store (h + 8) 8 (byteOf memMagic)
    return h + 16

/-- `HC_CAlloc`. -/
def cAlloc (h size : I64) : HeapM I64 := do
  let p ← mAlloc h size
  HeapM.store p size.toNat fun _ => 0
  return p

/-- `memcpy` of `n` bytes, of which byte `k` is at `src k`. -/
def memcpyFrom (p : I64) (n : I64) (src : Mem → Nat → Byte) : HeapM Unit := do
  let m ← HeapM.mem
  HeapM.store p n.toNat (src m)

/-- `HC_MAllocIdent`. -/
def mAllocIdent (h src : I64) : HeapM I64 := do
  if src = 0 then return 0
  else
    let m ← HeapM.mem
    let n := mSize m src
    let p ← mAlloc h n
    memcpyFrom p n fun m k => m (src + BitVec.ofNat 64 k)
    return p

/-- `HC_Free`. -/
def freeBlock (p : I64) : HeapM Unit := do
  if p = 0 then return ()
  else
    let m ← HeapM.mem
    if magicWord m p ≠ memMagic then HeapM.exit
    else
      HeapM.unmark p
      HeapM.free (p - 16)

/-- The memory `m`, as the functions on strings see it. -/
def Host.over (H : Host) (m : Mem) : Host := { H with mem := m }

/-- The length of the string at `s`, where no string is at 0. -/
def strLen (H : Host) (m : Mem) (s : I64) : Nat := if s = 0 then 0 else (H.over m).strlen s

/-- Byte `k` of the string at `s`, where a null `s` stands for the empty string. -/
def strByte (s : I64) (m : Mem) (k : Nat) : Byte := if s = 0 then 0 else m (s + BitVec.ofNat 64 k)

/-- `HC_StrNew`. -/
def strNew (H : Host) (h s : I64) : HeapM I64 := do
  let m ← HeapM.mem
  let n := BitVec.ofNat 64 (strLen H m s) + 1
  let p ← mAlloc h n
  memcpyFrom p n (strByte s)
  return p

/-- `HC_StrNew` of a text outside the heap. -/
def textNew (h : I64) (add : List Byte) : HeapM I64 := do
  let n := BitVec.ofNat 64 add.length + 1
  let p ← mAlloc h n
  memcpyFrom p n fun _ k => add.getD k 0
  return p

/-- `HC_StrPrintJoin`, where `out` is what `hc_format` has put into `o.buf`. -/
def strPrintJoin (H : Host) (h dst : I64) (out : List Byte) : HeapM I64 := do
  let add := out.takeWhile (· ≠ 0)
  if dst = 0 then textNew h add
  else
    let m ← HeapM.mem
    let dl := BitVec.ofNat 64 (strLen H m dst)
    let r ← mAlloc h (dl + BitVec.ofNat 64 add.length + 1)
    memcpyFrom r dl fun m k => m (dst + BitVec.ofNat 64 k)
    HeapM.store (r + dl) (add.length + 1) fun k => add.getD k 0
    freeBlock dst
    return r

/-! ## Blocks in memory -/

theorem read_congr {m m' : Mem} {a : I64} {n : Nat} (hn : n ≤ 2 ^ 64)
    (h : ∀ x, (⟨a, n⟩ : Bytes).Has x → m x = m' x) : m.read a n = m'.read a n := by
  have hbytes : ∀ i, i < n → m (a + BitVec.ofNat 64 i) = m' (a + BitVec.ofNat 64 i) :=
    fun i hi => h _ ((Extent.has_offset (by omega)).mpr hi)
  clear h hn
  induction n generalizing a with
  | zero => rfl
  | succ n ih =>
      have hzero : a + BitVec.ofNat 64 0 = a := BitVec.add_zero a
      have hfirst := hbytes 0 (Nat.zero_lt_succ n)
      rw [hzero] at hfirst
      unfold Mem.read
      rw [hfirst, ih fun i hi => ?_]
      have hnext : a + 1 + BitVec.ofNat 64 i = a + BitVec.ofNat 64 (i + 1) := by
        rw [BitVec.ofNat_add, BitVec.add_assoc]
        exact congrArg (a + ·) (BitVec.add_comm 1#64 _)
      rw [hnext]
      exact hbytes (i + 1) (Nat.succ_lt_succ hi)

/-- A write is an overlay. -/
theorem write_of_not_has {m : Mem} {a x : I64} {n : Nat} {f : Nat → Byte}
    (h : ¬ (⟨a, n⟩ : Bytes).Has x) : m.write a n f x = m x :=
  Extent.overlay_of_not_has (e := ⟨a, n⟩) h

theorem write_offset {m : Mem} {a : I64} {n i : Nat} {f : Nat → Byte} (hi : i < n)
    (hn : i < 2 ^ 64) : m.write a n f (a + BitVec.ofNat 64 i) = f i :=
  Extent.overlay_offset (e := ⟨a, n⟩) hi hn

namespace Block

variable {b c : Block} {m m' : Mem}

theorem ptr_sub (b : Block) : b.ptr - 16 = b.base := BitVec.add_sub_cancel b.base 16

theorem header_part (b : Block) : b.header.Part b.bytes := by
  intro x hx
  exact Nat.lt_of_lt_of_le hx (Nat.le_add_right _ _)

theorem len_lt (hfit : b.Fits) : b.len < 2 ^ 64 := Nat.lt_of_le_of_lt (Nat.le_add_left _ _) hfit

theorem ptr_ne_zero (hfit : b.Fits) : b.ptr ≠ 0 := by
  intro h
  have hval : b.ptr.toNat = b.base.toNat + hdrSize := by
    have hlen : hdrSize ≤ b.len := Nat.le_add_right _ _
    unfold Fits at hfit
    unfold ptr
    rw [BitVec.toNat_add, BitVec.toNat_ofNat]
    unfold hdrSize at *
    omega
  rw [h] at hval
  unfold hdrSize at hval
  simp at hval

/-- Blocks that are apart do not start at the same address. -/
theorem base_ne (h : b.bytes.Apart c.bytes) : b.base ≠ c.base := by
  intro hbase
  have hfirst : ∀ d : Block, d.base = c.base → d.bytes.Has c.base := by
    intro d hd
    change (c.base - d.base).toNat < d.len
    rw [hd, BitVec.sub_self]
    exact Nat.lt_of_lt_of_le (by decide : 0 < hdrSize) (Nat.le_add_right _ _)
  exact h c.base (hfirst b hbase) (hfirst c rfl)

/-- The header holds the size and the magic word. -/
structure Intact (m : Mem) (b : Block) : Prop where
  size : sizeWord m b.ptr = clampSize b.request
  magic : magicWord m b.ptr = memMagic

/-- The header is intact in every memory that agrees on it. -/
theorem Intact.congr (h : b.Intact m) (hm : ∀ x, b.header.Has x → m' x = m x) :
    b.Intact m' := by
  have hsize : m'.read b.base 8 = m.read b.base 8 := by
    apply read_congr (by decide)
    intro x hx
    have hlen : 8 < hdrSize := by decide
    exact hm x (Nat.lt_trans hx hlen)
  have hmagic : m'.read (b.base + 8) 8 = m.read (b.base + 8) 8 := by
    apply read_congr (by decide)
    intro x hx
    have hend : 8 + 8 ≤ hdrSize := by decide
    have hsmall : hdrSize ≤ 2 ^ 64 := by decide
    exact hm x (Extent.part_offset (e := b.header) (k := 8) hend hsmall x hx)
  constructor
  · have hold := h.size
    unfold sizeWord at hold ⊢
    rw [ptr_sub] at hold ⊢
    rw [hsize, hold]
  · have hold := h.magic
    unfold magicWord at hold ⊢
    rw [ptr_sub] at hold ⊢
    rw [hmagic, hold]

/-- `MSize` of a live pointer. -/
theorem Intact.mSize (h : b.Intact m) (hfit : b.Fits) : mSize m b.ptr = clampSize b.request := by
  unfold Runtime.mSize
  rw [if_neg (ptr_ne_zero hfit), if_pos h.magic, h.size]

/-- Bytes of the payload, from offset `k` on. -/
theorem payload_part {k n : Nat} (hfit : b.Fits) (h : k + n ≤ (clampSize b.request).toNat) :
    Extent.Part ⟨b.ptr + BitVec.ofNat 64 k, n⟩ b.bytes := by
  have hptr : b.ptr + BitVec.ofNat 64 k = b.base + BitVec.ofNat 64 (hdrSize + k) := by
    unfold ptr
    rw [BitVec.ofNat_add, BitVec.add_assoc]
  rw [hptr]
  apply Extent.part_offset (e := b.bytes)
  · change hdrSize + k + n ≤ b.len
    unfold len
    omega
  · exact Nat.le_of_lt (len_lt hfit)

/-- The payload is apart from the header. -/
theorem payload_apart {k n : Nat} (hfit : b.Fits) (h : k + n ≤ (clampSize b.request).toNat) :
    Extent.Apart ⟨b.ptr + BitVec.ofNat 64 k, n⟩ b.header := by
  have hlen : hdrSize + (clampSize b.request).toNat ≤ 2 ^ 64 := Nat.le_of_lt (len_lt hfit)
  have hsize : (clampSize b.request).toNat ≤ 2 ^ 64 := Nat.le_of_lt (BitVec.isLt _)
  generalize (clampSize b.request).toNat = size at h hlen hsize
  have hpayload : b.header.Apart ⟨b.ptr, size⟩ := Extent.apart_offset hlen
  have hpart : Extent.Part ⟨b.ptr + BitVec.ofNat 64 k, n⟩ ⟨b.ptr, size⟩ :=
    Extent.part_offset (e := ⟨b.ptr, size⟩) h hsize
  exact hpayload.symm.mono hpart (Extent.Part.refl _)

end Block

end Hlang.Runtime
