import Hlang.Runtime.ReadBack

/-!
# Hlang.Runtime.ZList — the lists of `%z`

A list of strings is a string constant with a NUL behind each entry, the last of
which the compiler puts there. `%z` steps over entries until it finds an empty
one; unless the source text ends in a NUL of its own there is none.
-/

namespace Hlang.Runtime

/-! ## Texts in memory -/

/-- The bytes `s` are in memory from `a` on. -/
def Host.HoldsAt (H : Host) : I64 → List Byte → Prop
  | _, [] => True
  | a, c :: s => H.mem a = c ∧ H.HoldsAt (a + 1) s

variable {H : Host}

theorem add_ofNat_succ (a : I64) (n : Nat) :
    a + BitVec.ofNat 64 (n + 1) = a + 1 + BitVec.ofNat 64 n := by
  have hsucc : BitVec.ofNat 64 (n + 1) = 1 + BitVec.ofNat 64 n := by
    rw [Nat.add_comm]
    exact BitVec.ofNat_add 1 n
  rw [hsucc, BitVec.add_assoc]

theorem holdsAt_append {a : I64} {s t : List Byte} :
    H.HoldsAt a (s ++ t) ↔ H.HoldsAt a s ∧ H.HoldsAt (a + BitVec.ofNat 64 s.length) t := by
  induction s generalizing a with
  | nil =>
      have hzero : a + BitVec.ofNat 64 0 = a := BitVec.add_zero a
      rw [List.nil_append, List.length_nil, hzero]
      exact ⟨fun h => ⟨trivial, h⟩, And.right⟩
  | cons c s ih =>
      rw [List.cons_append, Host.HoldsAt, Host.HoldsAt, ih, List.length_cons, add_ofNat_succ,
        and_assoc]

/-- A string that ends in memory. -/
theorem cstr_holdsAt {s : List Byte} (hs : ∀ c ∈ s, c ≠ 0) {a : I64} (hat : H.HoldsAt a (s ++ [0]))
    {fuel : Nat} (hfuel : s.length < fuel) : H.cstr fuel a = s := by
  induction s generalizing a fuel with
  | nil =>
      cases fuel with
      | zero => exact absurd hfuel (Nat.not_lt_zero _)
      | succ fuel =>
          have hnul : H.mem a = 0 := hat.1
          rw [Host.cstr, if_pos hnul]
  | cons c s ih =>
      cases fuel with
      | zero => exact absurd hfuel (Nat.not_lt_zero _)
      | succ fuel =>
          have hc : H.mem a = c := hat.1
          rw [Host.cstr, hc, if_neg (hs c List.mem_cons_self),
            ih (fun d hd => hs d (List.mem_cons_of_mem _ hd)) hat.2 (Nat.lt_of_succ_lt_succ hfuel)]

theorem strlen_holdsAt {s : List Byte} (hs : ∀ c ∈ s, c ≠ 0) {a : I64}
    (hat : H.HoldsAt a (s ++ [0])) (hlen : s.length < 2 ^ 63) : H.strlen a = s.length := by
  unfold Host.strlen
  rw [cstr_holdsAt hs hat (by omega)]

/-! ## What `%z` reads -/

/-- The bytes that `strlen` reads. -/
def Host.strlenReads (H : Host) (a : I64) : List I64 :=
  (List.range (H.strlen a + 1)).map fun i => a + BitVec.ofNat 64 i

/-- The bytes that the loop of `%z` reads. -/
def Host.zLoopReads (H : Host) : Nat → I64 → List I64
  | 0, _ => []
  | idx + 1, lst =>
      if H.mem lst = 0 then [lst]
      else lst :: (H.strlenReads lst ++
        H.zLoopReads idx (lst + BitVec.ofNat 64 (H.strlen lst) + 1))

/-- The bytes that `fmt_field` emits of the string at `lst`. -/
def Host.emitReads (H : Host) (lst : I64) : List I64 :=
  (List.range (BitVec.ofInt 64 (toInt32 (H.strlen lst))).toNat).map fun i =>
    lst + BitVec.ofNat 64 i

/-- The bytes that `%z` reads, for the index `idx` and the list at `lst`. -/
def Host.zReads (H : Host) (idx : Nat) (lst : I64) : List I64 :=
  H.zLoopReads idx lst ++
    (H.strlenReads (H.zEntry idx lst) ++ H.emitReads (H.zEntry idx lst))

/-! ## Lists of strings -/

/-- A list of nonempty strings. -/
structure ZList where
  entries : List (List Byte)
  nonempty : ∀ e ∈ entries, e ≠ []
  noNul : ∀ e ∈ entries, ∀ c ∈ e, c ≠ 0

namespace ZList

/-- The bytes of a string literal that holds the list, with or without a NUL at its end. -/
def literal (L : ZList) (trailing : Bool) : List Byte :=
  List.intercalate [0] L.entries ++ if trailing then [0] else []

end ZList

/-- `stringConst`: the bytes of the literal and a NUL. -/
def stringConst (s : List Byte) : List Byte := s ++ [0]

/-- A compiled literal in memory: an object of less than half the address space, not at the null
address. -/
structure Host.Placed (H : Host) (a : I64) (s : List Byte) : Prop where
  holds : H.HoldsAt a s
  nonnull : a ≠ 0
  small : s.length < 2 ^ 63

/-- The entries, each with a NUL behind it. -/
def zBytes (es : List (List Byte)) : List Byte := es.flatMap (· ++ [0])

theorem intercalate_zBytes {es : List (List Byte)} (hne : es ≠ []) :
    List.intercalate [0] es ++ [0] = zBytes es := by
  induction es with
  | nil => exact absurd rfl hne
  | cons e es ih =>
      cases es with
      | nil => simp [List.intercalate, zBytes]
      | cons e' es =>
          have hih := ih (List.cons_ne_nil _ _)
          unfold zBytes at hih ⊢
          rw [List.flatMap_cons, ← hih]
          simp [List.intercalate, List.intersperse]

/-- The NULs of the compiled literal behind those of the entries. -/
def ZList.spare (L : ZList) (trailing : Bool) : Nat :=
  (if trailing then 1 else 0) + if L.entries = [] then 1 else 0

/-- What the compiler puts into memory. -/
theorem stringConst_literal (L : ZList) (trailing : Bool) :
    stringConst (L.literal trailing) =
      zBytes L.entries ++ List.replicate (L.spare trailing) 0 := by
  unfold stringConst ZList.literal ZList.spare
  by_cases hnil : L.entries = []
  · rw [if_pos hnil, hnil]
    cases trailing with
    | false => rfl
    | true => rfl
  · have hbytes := intercalate_zBytes hnil
    rw [if_neg hnil]
    cases trailing with
    | false => simpa using hbytes
    | true =>
        rw [← hbytes]
        rfl

/-! ## The walk over the entries -/

/-- The address `x` is one of the `n` from `a` on. -/
def Inside (a : I64) (n : Nat) (x : I64) : Prop := (x - a).toNat < n

theorem toNat_add_sub (a : I64) {i : Nat} (h : i < 2 ^ 64) :
    (a + BitVec.ofNat 64 i - a).toNat = i := by
  have hcancel : a + BitVec.ofNat 64 i - a = BitVec.ofNat 64 i := by
    rw [BitVec.add_comm, BitVec.add_sub_cancel]
  rw [hcancel, BitVec.toNat_ofNat, Nat.mod_eq_of_lt h]

theorem inside_add {a : I64} {i n : Nat} (h : i < n) (hn : n < 2 ^ 63) :
    Inside a n (a + BitVec.ofNat 64 i) := by
  unfold Inside
  rw [toNat_add_sub a (by omega)]
  exact h

theorem inside_self {n : Nat} (a : I64) (h : 0 < n) : Inside a n a := by
  unfold Inside
  rwa [BitVec.sub_self]

/-- Inside a part is inside the whole. -/
theorem Inside.shift {a x : I64} {o n : Nat} (h : Inside (a + BitVec.ofNat 64 o) n x)
    (hn : o + n < 2 ^ 63) : Inside a (o + n) x := by
  unfold Inside at h ⊢
  have hsplit : x - a = (x - (a + BitVec.ofNat 64 o)) + BitVec.ofNat 64 o := by
    bv_omega
  rw [hsplit, BitVec.toNat_add, BitVec.toNat_ofNat]
  omega

section Walk

variable {a : I64} {e : List Byte} {es : List (List Byte)} {m : Nat}

/-- Entries are nonempty and have no NULs. -/
def Entries (es : List (List Byte)) : Prop := ∀ e ∈ es, e ≠ [] ∧ ∀ c ∈ e, c ≠ 0

theorem Entries.tail (h : Entries (e :: es)) : Entries es :=
  fun e he => h e (List.mem_cons_of_mem _ he)

/-- The first entry of a list in memory, and what follows it. -/
structure FirstEntry (H : Host) (a : I64) (e : List Byte) (rest : List Byte) : Prop where
  mem_ne : H.mem a ≠ 0
  holds : H.HoldsAt a (e ++ [0])
  strlen : H.strlen a = e.length
  next : a + BitVec.ofNat 64 (H.strlen a) + 1 = a + BitVec.ofNat 64 (e.length + 1)
  rest : H.HoldsAt (a + BitVec.ofNat 64 (e.length + 1)) rest

theorem firstEntry (hes : Entries (e :: es)) {rest : List Byte}
    (hat : H.HoldsAt a (zBytes (e :: es) ++ rest))
    (hn : (zBytes (e :: es) ++ rest).length < 2 ^ 63) :
    FirstEntry H a e (zBytes es ++ rest) := by
  have he := hes e List.mem_cons_self
  have hbytes : zBytes (e :: es) ++ rest = (e ++ [0]) ++ (zBytes es ++ rest) := by
    unfold zBytes
    rw [List.flatMap_cons, List.append_assoc]
  rw [hbytes, holdsAt_append, List.length_append, List.length_singleton] at hat
  rw [hbytes, List.length_append, List.length_append, List.length_singleton] at hn
  have hstrlen := strlen_holdsAt he.2 hat.1 (by omega)
  have hnext : a + BitVec.ofNat 64 (H.strlen a) + 1 = a + BitVec.ofNat 64 (e.length + 1) := by
    rw [hstrlen, BitVec.add_assoc]
    congr 1
    exact (BitVec.ofNat_add e.length 1).symm
  refine ⟨?_, hat.1, hstrlen, hnext, hat.2⟩
  cases e with
  | nil => exact absurd rfl he.1
  | cons c e =>
      have hc : H.mem a = c := hat.1.1
      rw [hc]
      exact he.2 c List.mem_cons_self

theorem length_zBytes_cons (e : List Byte) (es : List (List Byte)) (m : Nat) :
    (zBytes (e :: es) ++ List.replicate m 0).length =
      (e.length + 1) + (zBytes es ++ List.replicate m 0).length := by
  unfold zBytes
  rw [List.flatMap_cons, List.append_assoc, List.length_append, List.length_append,
    List.length_singleton]

theorem length_zBytes_pos (h : es ≠ []) : 0 < (zBytes es).length := by
  cases es with
  | nil => exact absurd rfl h
  | cons e es =>
      unfold zBytes
      rw [List.flatMap_cons, List.length_append, List.length_append, List.length_singleton]
      omega

/-- Where the loop of `%z` ends: at the entry, or at a NUL behind the entries. -/
structure Found (H : Host) (a : I64) (es : List (List Byte)) (m k : Nat) : Prop where
  entry : ∀ e, es[k]? = some e → ∃ o,
    H.zEntry k a = a + BitVec.ofNat 64 o ∧ o + e.length < (zBytes es ++ List.replicate m 0).length ∧
      H.HoldsAt (H.zEntry k a) (e ++ [0])
  none : es.length ≤ k → 0 < m → ∃ o, H.zEntry k a = a + BitVec.ofNat 64 o ∧
    o < (zBytes es ++ List.replicate m 0).length ∧ H.mem (H.zEntry k a) = 0
  reads : k ≤ es.length ∨ 0 < m → ∀ x ∈ H.zLoopReads k a,
    Inside a (zBytes es ++ List.replicate m 0).length x

theorem holds_nul (hm : 0 < m) (hat : H.HoldsAt a (List.replicate m 0)) : H.mem a = 0 := by
  cases m with
  | zero => exact absurd hm (Nat.lt_irrefl 0)
  | succ m => exact hat.1

theorem add_ofNat_zero (a : I64) : a + BitVec.ofNat 64 0 = a := BitVec.add_zero a

theorem add_ofNat_add (a : I64) (o p : Nat) :
    a + BitVec.ofNat 64 o + BitVec.ofNat 64 p = a + BitVec.ofNat 64 (o + p) := by
  rw [BitVec.ofNat_add, BitVec.add_assoc]

/-- The bytes that `strlen` reads of the first entry. -/
theorem FirstEntry.strlenReads {rest : List Byte} (F : FirstEntry H a e rest) {x : I64}
    (hx : x ∈ H.strlenReads a) : ∃ i, i ≤ e.length ∧ x = a + BitVec.ofNat 64 i := by
  unfold Host.strlenReads at hx
  rcases List.mem_map.mp hx with ⟨i, hi, rfl⟩
  rw [List.mem_range, F.strlen] at hi
  exact ⟨i, Nat.le_of_lt_succ hi, rfl⟩

/-- The walk, by induction on the index. -/
theorem found (hes : Entries es) (hat : H.HoldsAt a (zBytes es ++ List.replicate m 0))
    (hn : (zBytes es ++ List.replicate m 0).length < 2 ^ 63) (k : Nat) : Found H a es m k := by
  induction k generalizing a es with
  | zero =>
      constructor
      · intro e he
        cases es with
        | nil => exact nomatch he
        | cons e' es =>
            rcases Option.some.inj he with rfl
            have F := firstEntry hes hat hn
            refine ⟨0, (add_ofNat_zero a).symm, ?_, F.holds⟩
            rw [length_zBytes_cons]
            omega
      · intro hle hm
        rcases List.eq_nil_of_length_eq_zero (Nat.le_zero.mp hle) with rfl
        refine ⟨0, (add_ofNat_zero a).symm, ?_, holds_nul hm hat⟩
        show 0 < (List.replicate m 0).length
        rwa [List.length_replicate]
      · intro _ x hx
        exact nomatch hx
  | succ k ih =>
      cases es with
      | nil =>
          constructor
          · intro e he
            exact nomatch he
          · intro _ hm
            have hnul := holds_nul hm hat
            have hstay : H.zEntry (k + 1) a = a := by
              rw [Host.zEntry, if_pos hnul]
            rw [hstay]
            refine ⟨0, (add_ofNat_zero a).symm, ?_, hnul⟩
            show 0 < (List.replicate m 0).length
            rwa [List.length_replicate]
          · intro hk x hx
            have hm : 0 < m := hk.resolve_left (by simp)
            rw [Host.zLoopReads, if_pos (holds_nul hm hat), List.mem_singleton] at hx
            have hlen : 0 < (zBytes [] ++ List.replicate m 0 : List Byte).length := by
              show 0 < (List.replicate m 0).length
              rwa [List.length_replicate]
            rw [hx]
            exact inside_self a hlen
      | cons e es =>
          have F := firstEntry hes hat hn
          have hlen := length_zBytes_cons e es m
          have hwalk : H.zEntry (k + 1) a = H.zEntry k (a + BitVec.ofNat 64 (e.length + 1)) := by
            rw [Host.zEntry, if_neg F.mem_ne, F.next]
          have hrest := ih hes.tail F.rest (by omega)
          constructor
          · intro e' he'
            rcases hrest.entry e' he' with ⟨o, ho, hlt, hholds⟩
            rw [hwalk]
            exact ⟨e.length + 1 + o, by rw [ho, add_ofNat_add], by omega, hholds⟩
          · intro hle hm
            rcases hrest.none (Nat.le_of_succ_le_succ hle) hm with ⟨o, ho, hlt, hnul⟩
            rw [hwalk]
            exact ⟨e.length + 1 + o, by rw [ho, add_ofNat_add], by omega, hnul⟩
          · intro hk x hx
            rw [Host.zLoopReads, if_neg F.mem_ne, F.next] at hx
            rcases List.mem_cons.mp hx with rfl | hx
            · exact inside_self x (by omega)
            · rcases List.mem_append.mp hx with hx | hx
              · rcases F.strlenReads hx with ⟨i, hi, rfl⟩
                exact inside_add (by omega) hn
              · rw [hlen]
                exact (hrest.reads (hk.imp_left Nat.le_of_succ_le_succ) x hx).shift (by omega)

/-! ## Reads behind the list -/

theorem mem_zReads_self (k : Nat) (a : I64) : a ∈ H.zReads k a := by
  unfold Host.zReads
  cases k with
  | zero =>
      refine List.mem_append_right _ (List.mem_append_left _ ?_)
      exact List.mem_map.mpr ⟨0, List.mem_range.mpr (Nat.succ_pos _), add_ofNat_zero a⟩
  | succ k =>
      refine List.mem_append_left _ ?_
      rw [Host.zLoopReads]
      split_ifs
      · exact List.mem_singleton_self a
      · exact List.mem_cons_self

/-- An index that is not one of the list reads the byte behind the entries. -/
theorem reads_behind (hes : Entries es) (hat : H.HoldsAt a (zBytes es ++ List.replicate m 0))
    (hn : (zBytes es ++ List.replicate m 0).length < 2 ^ 63) {k : Nat} (hk : es.length ≤ k) :
    a + BitVec.ofNat 64 (zBytes es).length ∈ H.zReads k a := by
  induction es generalizing a k with
  | nil =>
      have hzero : (zBytes []).length = 0 := rfl
      rw [hzero, add_ofNat_zero]
      exact mem_zReads_self k a
  | cons e es ih =>
      cases k with
      | zero => exact absurd hk (by simp)
      | succ k =>
          have F := firstEntry hes hat hn
          have hlen := length_zBytes_cons e es m
          have hrest := ih hes.tail F.rest (by omega) (Nat.le_of_succ_le_succ hk)
          rw [add_ofNat_add] at hrest
          have hbytes : (zBytes (e :: es)).length = e.length + 1 + (zBytes es).length := by
            unfold zBytes
            rw [List.flatMap_cons, List.length_append, List.length_append, List.length_singleton]
          rw [hbytes]
          unfold Host.zReads at hrest ⊢
          rw [Host.zLoopReads, if_neg F.mem_ne, Host.zEntry, if_neg F.mem_ne, F.next]
          rcases List.mem_append.mp hrest with hx | hx
          · exact List.mem_append_left _
              (List.mem_cons_of_mem _ (List.mem_append_right _ hx))
          · exact List.mem_append_right _ hx

end Walk

/-! ## The entry that is printed -/

/-- What a string in memory is emitted as. -/
theorem outEmit_holdsAt {a : I64} {s : List Byte} (hat : H.HoldsAt a s) {n : Nat}
    (hn : n ≤ s.length) : outEmit (H.at a) 0 n = s.take n := by
  induction s generalizing a n with
  | nil =>
      have hzero : n = 0 := Nat.le_zero.mp hn
      rw [hzero]
      rfl
  | cons c s ih =>
      cases n with
      | zero => rfl
      | succ n =>
          have ih := ih hat.2 (Nat.le_of_succ_le_succ hn)
          unfold outEmit Host.at at ih ⊢
          rw [List.range_succ_eq_map, List.map_cons, List.map_map, List.take_succ_cons, ← ih]
          have hhead : H.mem (a + BitVec.ofNat 64 (0 + 0)) = c := by
            rw [Nat.add_zero, add_ofNat_zero]
            exact hat.1
          rw [hhead]
          refine congrArg _ (List.map_congr_left ?_)
          intro i _
          show H.mem (a + BitVec.ofNat 64 (0 + (i + 1))) = _
          rw [← Nat.add_assoc, add_ofNat_succ]

/-- `%z` without a width, at the string it has found. -/
def zField (H : Host) (left : Bool) (lst : I64) : List Byte :=
  fmtField (H.at lst) (toInt32 (H.strlen lst)) 0 left false

theorem toInt32_bounds (n : Nat) : -2 ^ 31 ≤ toInt32 n ∧ toInt32 n < 2 ^ 31 ∧
    (0 ≤ toInt32 n ↔ n % 2 ^ 32 < 2 ^ 31) ∧ (toInt32 n).toNat ≤ n := by
  rw [toInt32_eq]
  split_ifs with h
  · omega
  · omega

/-- A length that is no negative `int`. -/
theorem zField_cut {lst : I64} {e : List Byte} (hat : H.HoldsAt lst (e ++ [0]))
    (hstrlen : H.strlen lst = e.length) (left : Bool) (h : 0 ≤ toInt32 e.length) :
    zField H left lst = e.take (toInt32 e.length).toNat := by
  have hbounds := toInt32_bounds e.length
  have hsize : (BitVec.ofInt 64 (toInt32 e.length)).toNat = (toInt32 e.length).toNat := by
    rw [BitVec.toNat_ofInt]
    omega
  unfold zField fmtField
  simp only
  rw [hstrlen, if_pos h, hsize]
  exact outEmit_holdsAt (holdsAt_append.mp hat).1 hbounds.2.2.2

/-- A negative length: with the padding there are `2 ^ 64` bytes. -/
theorem length_zField_negative {lst : I64} {n : Nat} (hstrlen : H.strlen lst = n) (left : Bool)
    (h : toInt32 n < 0) : (zField H left lst).length = 2 ^ 64 := by
  have hbounds := toInt32_bounds n
  have hsize : (BitVec.ofInt 64 (toInt32 n)).toNat + (0 - toInt32 n).toNat = 2 ^ 64 := by
    rw [BitVec.toNat_ofInt]
    omega
  unfold zField fmtField outPad outEmit
  simp only
  rw [hstrlen, if_neg (by omega)]
  cases left with
  | true =>
      rw [if_pos rfl, List.length_append, List.length_map, List.length_range,
        List.length_replicate]
      exact hsize
  | false =>
      simp only [Bool.false_eq_true, if_false]
      rw [List.length_append, List.length_map, List.length_range, List.length_replicate,
        Nat.add_comm]
      exact hsize

/-- A string is printed whole if and only if its length is an `int`. -/
theorem zField_eq_iff {lst : I64} {e : List Byte} (hat : H.HoldsAt lst (e ++ [0]))
    (hnul : ∀ c ∈ e, c ≠ 0) (hlen : e.length < 2 ^ 63) (left : Bool) :
    zField H left lst = e ↔ e.length < 2 ^ 31 := by
  have hstrlen := strlen_holdsAt hnul hat hlen
  have hbounds := toInt32_bounds e.length
  by_cases hneg : toInt32 e.length < 0
  · have hlength := length_zField_negative hstrlen left hneg
    constructor
    · intro h
      rw [h] at hlength
      omega
    · intro h
      omega
  · rw [zField_cut hat hstrlen left (Int.not_lt.mp hneg), List.take_eq_self_iff]
    rw [toInt32_eq] at hneg ⊢
    split_ifs at hneg ⊢ with hres
    · omega
    · omega

/-- The bytes of a string that are emitted lie in its object if and only if the length is no
negative `int`. -/
theorem emitReads_inside_iff {a lst : I64} {e : List Byte} {o n : Nat}
    (hlst : lst = a + BitVec.ofNat 64 o) (hstrlen : H.strlen lst = e.length)
    (hlen : o + e.length < n) (hn : n < 2 ^ 63) :
    (∀ x ∈ H.emitReads lst, Inside a n x) ↔ e.length % 2 ^ 32 < 2 ^ 31 := by
  have hbounds := toInt32_bounds e.length
  rw [← hbounds.2.2.1]
  unfold Host.emitReads
  rw [hstrlen]
  constructor
  · intro hall
    by_contra hneg
    -- a negative length reads on behind the object
    have hsize : n - o < (BitVec.ofInt 64 (toInt32 e.length)).toNat := by
      rw [BitVec.toNat_ofInt]
      omega
    have hbehind := hall _ (List.mem_map.mpr ⟨n - o, List.mem_range.mpr hsize, rfl⟩)
    unfold Inside at hbehind
    rw [hlst, add_ofNat_add, toNat_add_sub a (by omega)] at hbehind
    omega
  · intro h x hx
    have hsize : (BitVec.ofInt 64 (toInt32 e.length)).toNat = (toInt32 e.length).toNat := by
      rw [BitVec.toNat_ofInt]
      omega
    rcases List.mem_map.mp hx with ⟨i, hi, rfl⟩
    rw [List.mem_range, hsize] at hi
    rw [hlst, add_ofNat_add]
    exact inside_add (by omega) hn

/-! ## `%z` on a compiled list -/

/-- `%z` prints the entry with the index, nothing for an index behind the list, and reads
inside the compiled literal only. -/
structure ZStays (H : Host) (L : ZList) (trailing : Bool) (idx lst : I64) (out : List Byte) :
    Prop where
  entry : ∀ e, 0 ≤ idx.toInt → L.entries[idx.toInt.toNat]? = some e → out = e
  behind : (L.entries.length : Int) ≤ idx.toInt → out = []
  reads : ∀ x ∈ H.zReads idx.toInt.toNat lst,
    Inside lst (stringConst (L.literal trailing)).length x

/-- The index is one of the list, or an empty string ends the list; and the entry at the index
has a length that fits in an `int`, or that is cut to one if the index is negative and the
first entry is read. -/
def ZFits (L : ZList) (trailing : Bool) (idx : I64) : Prop :=
  (trailing = true ∨ L.entries = [] ∨ idx.toInt < L.entries.length) ∧
    ∀ e, L.entries[idx.toInt.toNat]? = some e →
      e.length < 2 ^ 31 ∨ idx.toInt < 0 ∧ e.length % 2 ^ 32 < 2 ^ 31

theorem spare_pos {L : ZList} {trailing : Bool} :
    0 < L.spare trailing ↔ trailing = true ∨ L.entries = [] := by
  unfold ZList.spare
  cases trailing with
  | false =>
      by_cases hnil : L.entries = []
      · simp [hnil]
      · simp [hnil]
  | true => simp

theorem convert_z (V : ArgVec) (f : Flags) (prec : I32) (A : Args)
    (hlst : (nextArg V (nextArg V A).2).1 ≠ 0) :
    (convert H V f 0 prec (ch 'z') A).1 = zField H f.left
      (H.zEntry (nextArg V A).1.toInt.toNat (nextArg V (nextArg V A).2).1) := by
  have hz : convert H V f 0 prec (ch 'z') A =
      if (nextArg V (nextArg V A).2).1 = 0 then ([], (nextArg V (nextArg V A).2).2)
      else (zField H f.left
        (H.zEntry (nextArg V A).1.toInt.toNat (nextArg V (nextArg V A).2).1),
          (nextArg V (nextArg V A).2).2) := rfl
  rw [hz, if_neg hlst]

theorem zReads_inside {k n : Nat} {a : I64} : (∀ x ∈ H.zReads k a, Inside a n x) ↔
    (∀ x ∈ H.zLoopReads k a, Inside a n x) ∧
      (∀ x ∈ H.strlenReads (H.zEntry k a), Inside a n x) ∧
      ∀ x ∈ H.emitReads (H.zEntry k a), Inside a n x := by
  unfold Host.zReads
  simp only [List.mem_append, or_imp, forall_and]

section Compiled

variable {L : ZList} {trailing : Bool} {lst : I64}

theorem entries_ok (L : ZList) : Entries L.entries :=
  fun e he => ⟨L.nonempty e he, L.noNul e he⟩

/-- The walk over a compiled list. -/
theorem found_placed (hp : H.Placed lst (stringConst (L.literal trailing))) (k : Nat) :
    Found H lst L.entries (L.spare trailing) k := by
  have hholds := hp.holds
  have hsmall := hp.small
  rw [stringConst_literal] at hholds hsmall
  exact found (entries_ok L) hholds hsmall k

/-- At an index of the list. -/
theorem zStays_entry (hp : H.Placed lst (stringConst (L.literal trailing))) {idx : I64}
    {e : List Byte} (he : L.entries[idx.toInt.toNat]? = some e) (left : Bool) :
    ZStays H L trailing idx lst (zField H left (H.zEntry idx.toInt.toNat lst)) ↔
      e.length < 2 ^ 31 ∨ idx.toInt < 0 ∧ e.length % 2 ^ 32 < 2 ^ 31 := by
  have hF := found_placed hp idx.toInt.toNat
  have hsmall := hp.small
  have hk : idx.toInt.toNat < L.entries.length := (List.getElem?_eq_some_iff.mp he).1
  rcases hF.entry e he with ⟨o, ho, hlt, hholds⟩
  rw [← stringConst_literal] at hlt
  have hnul := L.noNul e (List.mem_of_getElem? he)
  have hstrlen := strlen_holdsAt hnul hholds (by omega)
  have hprint := zField_eq_iff hholds hnul (by omega) left
  have hemit := emitReads_inside_iff ho hstrlen hlt hsmall
  have hloop := hF.reads (Or.inl (Nat.le_of_lt hk))
  rw [← stringConst_literal] at hloop
  have hstr : ∀ x ∈ H.strlenReads (H.zEntry idx.toInt.toNat lst),
      Inside lst (stringConst (L.literal trailing)).length x := by
    intro x hx
    unfold Host.strlenReads at hx
    rcases List.mem_map.mp hx with ⟨i, hi, rfl⟩
    rw [List.mem_range, hstrlen] at hi
    rw [ho, add_ofNat_add]
    exact inside_add (by omega) hsmall
  constructor
  · intro hz
    have hres := hemit.mp (zReads_inside.mp hz.reads).2.2
    by_cases hneg : idx.toInt < 0
    · exact Or.inr ⟨hneg, hres⟩
    · exact Or.inl (hprint.mp (hz.entry e (Int.not_lt.mp hneg) he))
  · intro hfits
    constructor
    · intro e' hidx he'
      rw [he] at he'
      rcases Option.some.inj he' with rfl
      exact hprint.mpr (hfits.resolve_right fun h => absurd h.1 (Int.not_lt.mpr hidx))
    · intro hbehind
      omega
    · refine zReads_inside.mpr ⟨hloop, hstr, hemit.mpr ?_⟩
      rcases hfits with h | h
      · omega
      · exact h.2

/-- At an index behind the list. -/
theorem zStays_behind (hp : H.Placed lst (stringConst (L.literal trailing))) {idx : I64}
    (hk : L.entries.length ≤ idx.toInt.toNat) (left : Bool) :
    ZStays H L trailing idx lst (zField H left (H.zEntry idx.toInt.toNat lst)) ↔
      0 < L.spare trailing := by
  have hF := found_placed hp idx.toInt.toNat
  have hsmall := hp.small
  constructor
  · intro hz
    by_contra hspare
    -- the byte behind the last entry is read, and the literal ends there
    have hholds := hp.holds
    rw [stringConst_literal] at hholds hsmall
    have hread := reads_behind (entries_ok L) hholds hsmall hk
    have hinside := hz.reads _ hread
    have hzero : L.spare trailing = 0 := Nat.eq_zero_of_not_pos hspare
    rw [hzero, List.replicate_zero, List.append_nil] at hsmall
    unfold Inside at hinside
    rw [toNat_add_sub lst (by omega), stringConst_literal, hzero, List.replicate_zero,
      List.append_nil] at hinside
    exact absurd hinside (Nat.lt_irrefl _)
  · intro hspare
    rcases hF.none hk hspare with ⟨o, ho, hlt, hnul⟩
    rw [← stringConst_literal] at hlt
    have hempty : H.HoldsAt (H.zEntry idx.toInt.toNat lst) ([] ++ [0]) := ⟨hnul, trivial⟩
    have hnone : ∀ c ∈ ([] : List Byte), c ≠ 0 := fun c hc => nomatch hc
    have hstrlen := strlen_holdsAt hnone hempty (by decide)
    have hprint := (zField_eq_iff hempty hnone (by decide) left).mpr (by decide)
    have hloop := hF.reads (Or.inr hspare)
    rw [← stringConst_literal] at hloop
    constructor
    · intro e _ he
      have hlt := (List.getElem?_eq_some_iff.mp he).1
      omega
    · intro _
      exact hprint
    · refine zReads_inside.mpr ⟨hloop, ?_, ?_⟩
      · intro x hx
        unfold Host.strlenReads at hx
        rcases List.mem_map.mp hx with ⟨i, hi, rfl⟩
        rw [List.mem_range, hstrlen, List.length_nil] at hi
        rw [ho, add_ofNat_add]
        exact inside_add (by omega) hsmall
      · exact (emitReads_inside_iff ho hstrlen (by simpa using hlt) hsmall).mpr (by decide)

/-- `%z` is right and stays inside its literal exactly under `ZFits`. -/
theorem zStays_iff (hp : H.Placed lst (stringConst (L.literal trailing))) (V : ArgVec) (A : Args)
    (hlst : (nextArg V (nextArg V A).2).1 = lst) (f : Flags) (prec : I32) :
    ZStays H L trailing (nextArg V A).1 lst (convert H V f 0 prec (ch 'z') A).1 ↔
      ZFits L trailing (nextArg V A).1 := by
  have hz := convert_z (H := H) V f prec A (hlst ▸ hp.nonnull)
  rw [hlst] at hz
  rw [hz]
  generalize (nextArg V A).1 = idx
  unfold ZFits
  cases he : L.entries[idx.toInt.toNat]? with
  | some e =>
      have hlt : idx.toInt.toNat < L.entries.length := (List.getElem?_eq_some_iff.mp he).1
      rw [zStays_entry hp he]
      constructor
      · intro h
        refine ⟨Or.inr (Or.inr (by omega)), ?_⟩
        intro e' he'
        rcases Option.some.inj he' with rfl
        exact h
      · intro h
        exact h.2 e rfl
  | none =>
      have hk : L.entries.length ≤ idx.toInt.toNat := List.getElem?_eq_none_iff.mp he
      rw [zStays_behind hp hk, spare_pos]
      constructor
      · intro h
        refine ⟨h.imp_right Or.inl, ?_⟩
        intro e' he'
        exact nomatch he'
      · intro h
        rcases h.1 with h | h | h
        · exact Or.inl h
        · exact Or.inr h
        · -- no index is below the length of the list here
          right
          have hzero : L.entries.length = 0 := by omega
          exact List.eq_nil_of_length_eq_zero hzero

end Compiled

/-- The list `A`, `B`. -/
def twoEntries : ZList where
  entries := [chs "A", chs "B"]
  nonempty := by decide
  noNul := by decide

/-- The list at address 1, as the compiler puts it there. -/
def twoHost (trailing : Bool) : Host := .holding (stringConst (twoEntries.literal trailing))

theorem twoHost_placed (trailing : Bool) :
    (twoHost trailing).Placed 1 (stringConst (twoEntries.literal trailing)) := by
  cases trailing with
  | true => exact ⟨⟨rfl, rfl, rfl, rfl, rfl, trivial⟩, by decide, by decide⟩
  | false => exact ⟨⟨rfl, rfl, rfl, rfl, trivial⟩, by decide, by decide⟩

/-- The arguments of `%z`. -/
def zArgs (idx lst : I64) : ArgVec := ⟨2, fun i => if i = 0 then idx else lst⟩

theorem two_stays :
    ZStays (twoHost true) twoEntries true 2 1
      (convert (twoHost true) (zArgs 2 1) {} 0 (-1) (ch 'z') {}).1 ↔ ZFits twoEntries true 2 :=
  zStays_iff (twoHost_placed true) (zArgs 2 1) {} rfl {} (-1)

/-- `"%z", 2, "A\0B"` reads the byte behind the literal. -/
theorem two_not_stays :
    ¬ ZStays (twoHost false) twoEntries false 2 1
      (convert (twoHost false) (zArgs 2 1) {} 0 (-1) (ch 'z') {}).1 := by
  have hz := convert_z (H := twoHost false) (zArgs 2 1) {} (-1) {} (by decide)
  have hk : twoEntries.entries.length ≤ (2 : I64).toInt.toNat := by decide
  have hbehind := zStays_behind (twoHost_placed false) hk false
  rw [hz]
  intro h
  exact absurd (hbehind.mp h) (by decide)

end Hlang.Runtime
