import Mathlib.Data.Nat.Digits.Lemmas
import Mathlib.Tactic.Common
import Mathlib.Tactic.SplitIfs

/-!
# Numeral — positional numerals

Numbers written highest digit first, as a reader sees them, and the grouping of
their digits in threes from the right.
-/

namespace Numeral

/-! ## Digits -/

variable {b n : Nat}

/-- The number that the digits `ds` denote, when the digits before them denote `a`. -/
def valueFrom (b a : Nat) (ds : List Nat) : Nat := ds.foldl (fun a d => a * b + d) a

/-- The number a list of digits denotes. -/
def value (b : Nat) (ds : List Nat) : Nat := valueFrom b 0 ds

@[simp] theorem value_nil : value b [] = 0 := rfl

@[simp] theorem valueFrom_cons (a d : Nat) (ds : List Nat) :
    valueFrom b a (d :: ds) = valueFrom b (a * b + d) ds := rfl

theorem value_append (ds : List Nat) (d : Nat) : value b (ds ++ [d]) = value b ds * b + d := by
  unfold value valueFrom
  rw [List.foldl_append, List.foldl_cons, List.foldl_nil]

/-- Mathlib's digits are lowest first. -/
theorem value_reverse (ds : List Nat) : value b ds.reverse = Nat.ofDigits b ds := by
  induction ds with
  | nil => rfl
  | cons d ds ih =>
      rw [List.reverse_cons, value_append, ih, Nat.ofDigits_cons]
      ring

/-- The numeral of a number: the digits of the number, a single `0` for zero. -/
def numeral (b n : Nat) : List Nat := if n = 0 then [0] else (Nat.digits b n).reverse

theorem value_numeral (b n : Nat) : value b (numeral b n) = n := by
  unfold numeral
  split_ifs with h
  · rw [h]
    simp [value, valueFrom]
  · rw [value_reverse, Nat.ofDigits_digits]

theorem numeral_ne_nil : numeral b n ≠ [] := by
  unfold numeral
  split_ifs with h
  · exact List.cons_ne_nil _ _
  · rw [ne_eq, List.reverse_eq_nil_iff]
    exact Nat.digits_ne_nil_iff_ne_zero.mpr h

theorem numeral_lt (hb : 1 < b) {d : Nat} (hd : d ∈ numeral b n) : d < b := by
  unfold numeral at hd
  split_ifs at hd with h
  · rw [List.mem_singleton] at hd
    omega
  · exact Nat.digits_lt_base hb (List.mem_reverse.mp hd)

/-- Only the numeral of zero begins with a zero. -/
theorem numeral_head (h : (numeral b n).head? = some 0) : numeral b n = [0] := by
  unfold numeral at h ⊢
  split_ifs at h ⊢ with h0
  · rfl
  · rw [List.head?_reverse] at h
    have hlast := Nat.getLast_digit_ne_zero b h0
    rw [List.getLast?_eq_some_getLast (Nat.digits_ne_nil_iff_ne_zero.mpr h0)] at h
    exact absurd (Option.some.inj h) hlast

/-- The digits of a number below `b ^ k` are at most `k`. -/
theorem numeral_length_le (hb : 1 < b) {k : Nat} (hk : 0 < k) (hn : n < b ^ k) :
    (numeral b n).length ≤ k := by
  unfold numeral
  split_ifs with h
  · exact hk
  · rw [List.length_reverse]
    exact (Nat.digits_length_le_iff hb n).mpr hn

/-! ## Groups of three -/

variable {α : Type*} {sep : α}

/-- `gs` is `ds` with `sep` before every third element from the right, and nowhere else. -/
structure Grouped [DecidableEq α] (sep : α) (ds gs : List α) : Prop where
  filter : gs.filter (· ≠ sep) = ds
  /-- counted from the right, from zero on -/
  sep_iff : ∀ i, gs.reverse[i]? = some sep ↔ i < gs.length ∧ i % 4 = 3
  head : gs.head? ≠ some sep
  last : gs.getLast? ≠ some sep

/-- A separator before every third element from the right. -/
def group (sep : α) : List α → List α
  | [] => []
  | d :: ds => d :: if ds ≠ [] ∧ ds.length % 3 = 0 then sep :: group sep ds else group sep ds

@[simp] theorem group_nil : group sep [] = [] := rfl

theorem group_cons (d : α) (ds : List α) : group sep (d :: ds) =
    d :: if ds ≠ [] ∧ ds.length % 3 = 0 then sep :: group sep ds else group sep ds := rfl

theorem length_group (sep : α) (ds : List α) : (group sep ds).length = ds.length + (ds.length - 1) / 3 := by
  induction ds with
  | nil => simp
  | cons d ds ih =>
      rw [group_cons, List.length_cons, List.length_cons]
      split_ifs with h
      · rw [List.length_cons, ih]
        have hpos : 0 < ds.length := List.length_pos_iff.mpr h.1
        have hmod := h.2
        omega
      · rw [ih]
        rw [not_and_or, not_not] at h
        rcases h with rfl | h
        · simp
        · omega

/-- The separators of a grouped list, counted from the right. -/
theorem group_reverse_eq_sep {ds : List α} (hds : sep ∉ ds) (i : Nat) :
    (group sep ds).reverse[i]? = some sep ↔ i < (group sep ds).length ∧ i % 4 = 3 := by
  induction ds with
  | nil => simp
  | cons d ds ih =>
      rw [List.mem_cons, not_or] at hds
      have ih := ih hds.2
      have hlen := length_group sep ds
      have hd : ¬ d = sep := fun h => hds.1 h.symm
      rw [group_cons]
      split_ifs with h
      · -- the separator is the element number `length (group ds)`, its digit the next
        have hpos : 0 < ds.length := List.length_pos_iff.mpr h.1
        have hmod := h.2
        rw [List.reverse_cons, List.reverse_cons, List.append_assoc]
        rcases Nat.lt_or_ge i (group sep ds).length with hi | hi
        · rw [List.getElem?_append_left (by rwa [List.length_reverse]), ih]
          simp only [List.length_cons]
          omega
        · rw [List.getElem?_append_right (by rwa [List.length_reverse]), List.length_reverse]
          rcases hk : i - (group sep ds).length with _ | _ | k
          · simp only [List.length_cons, List.cons_append, List.getElem?_cons_zero, true_iff]
            omega
          · have hne : ¬ i % 4 = 3 := by omega
            simp [hd, hne]
          · simp only [List.length_cons, List.nil_append, List.cons_append,
              List.getElem?_cons_succ, List.getElem?_nil, reduceCtorEq, false_iff]
            omega
      · rw [List.reverse_cons]
        rcases Nat.lt_or_ge i (group sep ds).length with hi | hi
        · rw [List.getElem?_append_left (by rwa [List.length_reverse]), ih]
          simp only [List.length_cons]
          omega
        · have hne : i = (group sep ds).length → ¬ i % 4 = 3 := by
            rw [not_and_or, not_not] at h
            rcases h with rfl | h
            · intro h0
              simp [h0]
            · omega
          rw [List.getElem?_append_right (by rwa [List.length_reverse]), List.length_reverse]
          rcases hk : i - (group sep ds).length with _ | k
          · have hne := hne (by omega)
            simp [hd, hne]
          · simp only [List.length_cons, List.getElem?_cons_succ, List.getElem?_nil, reduceCtorEq,
              false_iff]
            omega

theorem group_filter [DecidableEq α] {ds : List α} (hds : sep ∉ ds) :
    (group sep ds).filter (· ≠ sep) = ds := by
  induction ds with
  | nil => rfl
  | cons d ds ih =>
      rw [List.mem_cons, not_or] at hds
      have hd : d ≠ sep := fun h => hds.1 h.symm
      have ih := ih hds.2
      rw [group_cons]
      split_ifs with h
      · rw [List.filter_cons_of_pos (by simpa using hd), List.filter_cons_of_neg (by simp), ih]
      · rw [List.filter_cons_of_pos (by simpa using hd), ih]

theorem group_grouped [DecidableEq α] {ds : List α} (hds : sep ∉ ds) :
    Grouped sep ds (group sep ds) := by
  have hsep := group_reverse_eq_sep hds
  constructor
  · exact group_filter hds
  · exact hsep
  · intro hhead
    cases ds with
    | nil => exact absurd hhead (by simp)
    | cons d ds => exact hds (by simpa [group_cons] using Or.inl (Option.some.inj hhead).symm)
  · intro hlast
    have h0 := hsep 0
    rw [List.getLast?_eq_head?_reverse, List.head?_eq_getElem?, h0] at hlast
    exact absurd hlast.2 (by decide)

/-- A list without groups has no separator. -/
theorem filter_sep [DecidableEq α] {ds : List α} (hds : sep ∉ ds) : ds.filter (· ≠ sep) = ds := by
  rw [List.filter_eq_self]
  intro d hd
  simpa using fun h : d = sep => hds (h ▸ hd)

end Numeral
