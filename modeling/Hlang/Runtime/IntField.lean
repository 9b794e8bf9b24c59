import Hlang.Lib.Numeral
import Hlang.Runtime.FormatScan

/-!
# Hlang.Runtime.IntField — the fields of integers

What `%d`, `%u`, `%x` and `%X` emit, for every combination of the flags and
every width: blanks or zeros around a sign and the digits of a numeral, grouped
by commas where that is asked for. `int_body` gives the digits, `fmt_field` the
padding; both are followed from the scan of the format on.
-/

namespace Hlang.Runtime

open Numeral

/-! ## The digits of `int_body` -/

/-- The digit `d` of `int_body`. -/
def hexDigit (upper : Bool) (d : Nat) : Byte :=
  (chs (if upper then "0123456789ABCDEF" else "0123456789abcdef")).getD d 0

/-- The value of a digit. -/
def digitVal (c : Byte) : Option Nat :=
  let n := c.toNat
  if 48 ≤ n ∧ n ≤ 57 then some (n - 48)
  else if 65 ≤ n ∧ n ≤ 70 then some (n - 55)
  else if 97 ≤ n ∧ n ≤ 102 then some (n - 87)
  else none

/-- The digits of a text, if it has no other characters. -/
def digitVals (text : List Byte) : Option (List Nat) := text.mapM digitVal

/-- The number that a nonempty text of digits denotes. -/
def readNat (base : Nat) (text : List Byte) : Option Nat :=
  if text = [] then none else (digitVals text).map (value base)

/-- The number that an optional minus and digits denote. -/
def readInt (base : Nat) : List Byte → Option Int
  | [] => none
  | c :: text =>
      if c = ch '-' then (readNat base text).map fun n : Nat => -(n : Int)
      else (readNat base (c :: text)).map fun n : Nat => (n : Int)

theorem digitVal_hexDigit (upper : Bool) {d : Nat} (hd : d < 16) :
    digitVal (hexDigit upper d) = some d := by
  have hall : ∀ d : Fin 16, digitVal (hexDigit upper d) = some d.val := by
    cases upper <;> decide
  exact hall ⟨d, hd⟩

/-- A digit is none of the other characters of a field. -/
theorem hexDigit_ne (upper : Bool) {d : Nat} (hd : d < 16) {c : Char}
    (hc : c ∈ [',', '+', '-', ' ']) : hexDigit upper d ≠ ch c := by
  intro heq
  have hval := digitVal_hexDigit upper hd
  rw [heq] at hval
  simp only [List.mem_cons, List.not_mem_nil, or_false] at hc
  rcases hc with rfl | rfl | rfl | rfl <;> exact absurd hval (by simp [digitVal, ch])

theorem hexDigit_eq_zero {upper : Bool} {d : Nat} (hd : d < 16)
    (h : hexDigit upper d = ch '0') : d = 0 := by
  have hval := digitVal_hexDigit upper hd
  rw [h] at hval
  exact (Option.some.inj hval).symm

theorem digitVals_map {upper : Bool} {ds : List Nat} (hds : ∀ d ∈ ds, d < 16) :
    digitVals (ds.map (hexDigit upper)) = some ds := by
  induction ds with
  | nil => rfl
  | cons d ds ih =>
      have ih := ih fun d' hd' => hds d' (List.mem_cons_of_mem _ hd')
      unfold digitVals at ih ⊢
      rw [List.map_cons, List.mapM_cons, digitVal_hexDigit upper (hds d List.mem_cons_self), ih]
      rfl

/-- The digits that `int_body` writes. -/
def bodyDigits (base : Nat) (upper : Bool) (v : Nat) : List Byte :=
  (numeral base v).map (hexDigit upper)

section Digits

variable {base : Nat} {upper : Bool} {v : Nat}

theorem bodyDigits_lt (hb : 1 < base) (hb' : base ≤ 16) {d : Nat} (hd : d ∈ numeral base v) :
    d < 16 := Nat.lt_of_lt_of_le (numeral_lt hb hd) hb'

theorem bodyDigits_ne_nil : bodyDigits base upper v ≠ [] := by
  unfold bodyDigits
  rw [ne_eq, List.map_eq_nil_iff]
  exact numeral_ne_nil

theorem not_mem_bodyDigits (hb : 1 < base) (hb' : base ≤ 16) {c : Char}
    (hc : c ∈ [',', '+', '-', ' ']) : ch c ∉ bodyDigits base upper v := by
  intro hmem
  rcases List.mem_map.mp hmem with ⟨d, hd, heq⟩
  exact hexDigit_ne upper (bodyDigits_lt hb hb' hd) hc heq

theorem bodyDigits_head (hb : 1 < base) (hb' : base ≤ 16)
    (h : (bodyDigits base upper v).head? = some (ch '0')) :
    bodyDigits base upper v = [ch '0'] := by
  have hnum : (numeral base v).head? = some 0 := by
    unfold bodyDigits at h
    rw [List.head?_map, Option.map_eq_some_iff] at h
    rcases h with ⟨d, hd, heq⟩
    have hmem : d ∈ numeral base v := List.mem_of_head? hd
    rw [hd, hexDigit_eq_zero (bodyDigits_lt hb hb' hmem) heq]
  unfold bodyDigits
  rw [numeral_head hnum]
  cases upper <;> rfl

theorem readNat_bodyDigits (hb : 1 < base) (hb' : base ≤ 16) :
    readNat base (bodyDigits base upper v) = some v := by
  unfold readNat
  rw [if_neg bodyDigits_ne_nil]
  unfold bodyDigits
  rw [digitVals_map fun d hd => bodyDigits_lt hb hb' hd, Option.map_some, value_numeral]

theorem length_bodyDigits_le (hb : 1 < base) (hv : v < 2 ^ 64) :
    (bodyDigits base upper v).length ≤ 64 := by
  unfold bodyDigits
  rw [List.length_map]
  apply numeral_length_le hb (by decide)
  exact Nat.lt_of_lt_of_le hv (Nat.pow_le_pow_left hb 64)

/-- The loop of `int_body`, when it puts commas. -/
theorem intBodyDigits_group (digits : List Byte) {n : Nat} (hn : n ≤ digits.length) :
    intBodyDigits digits true n = group (ch ',') (digits.take n).reverse := by
  induction n with
  | zero => rfl
  | succ n ih =>
      have hn' : n < digits.length := by omega
      have hget : digits.getD n 0 = digits[n] := by simp [hn']
      have hlen : (digits.take n).length = n := List.length_take_of_le (Nat.le_of_lt hn')
      have hcond : ((digits.take n).reverse ≠ [] ∧ (digits.take n).reverse.length % 3 = 0) ↔
          (0 < n ∧ n % 3 = 0) := by
        rw [← List.length_pos_iff, List.length_reverse, hlen]
      rw [List.take_add_one, List.getElem?_eq_getElem hn', Option.toList_some,
        List.reverse_append, List.reverse_singleton, List.singleton_append, intBodyDigits,
        Numeral.group, ih (Nat.le_of_lt hn'), hget]
      congr 1
      by_cases h : 0 < n ∧ n % 3 = 0
      · rw [if_pos (hcond.mpr h)]
        simp [h]
      · rw [if_neg (fun h' => h (hcond.mp h'))]
        simp [h]

theorem intBodyDigits_plain (digits : List Byte) {n : Nat} (hn : n ≤ digits.length) :
    intBodyDigits digits false n = (digits.take n).reverse := by
  induction n with
  | zero => rfl
  | succ n ih =>
      have hn' : n < digits.length := by omega
      have hget : digits.getD n 0 = digits[n] := by simp [hn']
      rw [List.take_add_one, List.getElem?_eq_getElem hn', Option.toList_some,
        List.reverse_append, List.reverse_singleton, List.singleton_append, intBodyDigits,
        ih (Nat.le_of_lt hn'), hget]
      simp

/-- `int_body` writes the sign and the numeral, grouped on request. -/
theorem intBody_eq (v base : Nat) (upper commas neg : Bool) :
    intBody v base upper commas neg = (if neg then [ch '-'] else []) ++
      if commas = true ∧ base = 10 then group (ch ',') (bodyDigits base upper v)
      else bodyDigits base upper v := by
  have hdigits : (if v = 0 then [ch '0'] else (Nat.digits base v).map (hexDigit upper)) =
      (bodyDigits base upper v).reverse := by
    unfold bodyDigits numeral
    split_ifs
    · cases upper <;> rfl
    · rw [← List.map_reverse, List.reverse_reverse]
  have hall : ∀ ds : List Byte, (ds.reverse.take ds.reverse.length).reverse = ds := by
    intro ds
    rw [List.take_length, List.reverse_reverse]
  unfold intBody
  simp only
  rw [show (fun x => (chs (if upper = true then "0123456789ABCDEF" else
    "0123456789abcdef")).getD x 0) = hexDigit upper from rfl, hdigits]
  congr 1
  by_cases h : commas = true ∧ base = 10
  · rw [if_pos h, h.1, h.2]
    rw [show (true && decide (10 = 10)) = true from rfl, intBodyDigits_group _ (Nat.le_refl _), hall]
  · rw [if_neg h]
    have hf : (commas && decide (base = 10)) = false := by
      rw [Bool.and_eq_false_iff, decide_eq_false_iff_not]
      cases commas with
      | false => exact Or.inl rfl
      | true => exact Or.inr fun hb => h ⟨rfl, hb⟩
    rw [hf, intBodyDigits_plain _ (Nat.le_refl _), hall]

end Digits

/-! ## The padding of `fmt_field` -/

/-- A field: blanks, a sign, zeros, the body and blanks. -/
structure FieldParts where
  left : Nat
  sign : List Byte
  zeros : Nat
  body : List Byte
  right : Nat

def FieldParts.text (F : FieldParts) : List Byte :=
  List.replicate F.left (ch ' ') ++ (F.sign ++ (List.replicate F.zeros (ch '0') ++
    (F.body ++ List.replicate F.right (ch ' '))))

/-- The parts of the field of a text of sign and body. -/
def fieldParts (f : Flags) (w : Nat) (sign body : List Byte) : FieldParts :=
  let pad := w - (sign.length + body.length)
  if f.left then ⟨0, sign, 0, body, pad⟩
  else if f.zero then ⟨0, sign, pad, body, 0⟩
  else ⟨pad, sign, 0, body, 0⟩

theorem outEmit_bodyOf (text : List Byte) (old : Body) {i n : Nat} (h : i + n ≤ text.length) :
    outEmit (bodyOf text old) i n = (text.drop i).take n := by
  unfold outEmit bodyOf
  apply List.ext_getElem
  · simp only [List.length_map, List.length_range, List.length_take, List.length_drop]
    omega
  · intro k hk hk'
    simp only [List.length_map, List.length_range] at hk
    have hlt : i + k < text.length := by omega
    simp [hlt]

/-- `fmt_field` of a text that it is given whole, by the padding `n`. -/
def padded (f : Flags) (n : Nat) (text : List Byte) : List Byte :=
  if f.left then text ++ List.replicate n (ch ' ')
  else if f.zero then
    match text with
    | [] => List.replicate n (ch '0')
    | c :: rest =>
        if c = ch '-' ∨ c = ch '+' then c :: (List.replicate n (ch '0') ++ rest)
        else List.replicate n (ch '0') ++ c :: rest
  else List.replicate n (ch ' ') ++ text

theorem padded_none (f : Flags) (text : List Byte) : padded f 0 text = text := by
  unfold padded
  cases text with
  | nil => split_ifs <;> rfl
  | cons c rest => split_ifs <;> simp

theorem fmtField_padded (f : Flags) (w : I32) {text : List Byte} (hlen : text.length < 2 ^ 63)
    (old : Body) : fmtField (bodyOf text old) text.length w.toInt f.left f.zero =
      padded f (w.toInt - text.length).toNat text := by
  have hsize : (BitVec.ofInt 64 (text.length : Int)).toNat = text.length := by
    rw [BitVec.ofInt_natCast, BitVec.toNat_ofNat]
    omega
  have hall : outEmit (bodyOf text old) 0 text.length = text := by
    rw [outEmit_bodyOf _ _ (by omega), List.drop_zero, List.take_length]
  unfold fmtField outPad
  rw [hsize]
  simp only
  rw [hall]
  by_cases hle : w.toInt ≤ (text.length : Int)
  · -- no padding is needed
    have hzero : (w.toInt - (text.length : Int)).toNat = 0 := by omega
    rw [if_pos hle, hzero, padded_none]
  · rw [if_neg hle]
    unfold padded
    by_cases hl : f.left = true
    · rw [if_pos hl, if_pos hl]
    · rw [if_neg hl, if_neg hl]
      by_cases hz : f.zero = true
      · rw [if_pos hz, if_pos hz]
        cases text with
        | nil => simp
        | cons c rest =>
            have hfirst : bodyOf (c :: rest) old 0 = c := by simp [bodyOf]
            have hne : ((c :: rest).length : Int) ≠ 0 := by
              rw [List.length_cons]
              omega
            have hrest : (BitVec.ofInt 64 (((c :: rest).length : Int) - 1)).toNat =
                rest.length := by
              rw [List.length_cons] at hlen ⊢
              rw [Int.natCast_add, Int.natCast_one, Int.add_sub_cancel, BitVec.ofInt_natCast,
                BitVec.toNat_ofNat]
              omega
            rw [hfirst, hrest, outEmit_bodyOf _ _ (by simp), outEmit_bodyOf _ _ (by simp; omega)]
            by_cases hc : c = ch '-' ∨ c = ch '+'
            · rw [if_pos ⟨hne, hc⟩]
              simp [hc]
            · rw [if_neg (fun h => hc h.2)]
              simp [hc]
      · rw [if_neg hz, if_neg hz]

/-- A sign and a body without one. -/
structure SignOf (sign body : List Byte) : Prop where
  sign_eq : sign = [] ∨ sign = [ch '-'] ∨ sign = [ch '+']
  ne_nil : body ≠ []
  not_minus : ch '-' ∉ body
  not_plus : ch '+' ∉ body

/-- Zeros go between the sign and the digits. -/
theorem padded_parts (f : Flags) (w : Nat) {sign body : List Byte} (hs : SignOf sign body) :
    padded f (w - (sign.length + body.length)) (sign ++ body) =
      (fieldParts f w sign body).text := by
  unfold padded fieldParts FieldParts.text
  by_cases hl : f.left = true
  · simp [hl]
  · by_cases hz : f.zero = true
    · rw [if_neg hl, if_pos hz, if_neg hl, if_pos hz]
      rcases hs.sign_eq with rfl | rfl | rfl
      · -- the first digit is not taken for a sign
        cases body with
        | nil => exact absurd rfl hs.ne_nil
        | cons c body =>
            have hc : ¬ (c = ch '-' ∨ c = ch '+') := by
              rintro (rfl | rfl)
              · exact hs.not_minus List.mem_cons_self
              · exact hs.not_plus List.mem_cons_self
            simp [hc]
      · simp
      · simp
    · simp [hl, hz]

/-! ## What a conversion of an integer emits -/

/-- The conversions of integers. -/
inductive IntConv where
  | signed
  | unsigned
  | hex (upper : Bool)

/-- The conversion of a character of the `switch`. -/
def intConv (c : Byte) : Option IntConv :=
  match Char.ofNat c.toNat with
  | 'd' | 'i' => some .signed
  | 'u' => some .unsigned
  | 'x' => some (.hex false)
  | 'X' => some (.hex true)
  | _ => none

namespace IntConv

def base : IntConv → Nat
  | hex _ => 16
  | _ => 10

def upper : IntConv → Bool
  | hex upper => upper
  | _ => false

/-- The number that the conversion shows. -/
def value (v : I64) : IntConv → Int
  | signed => v.toInt
  | _ => v.toNat

/-- The sign that it shows. -/
def sign (f : Flags) (v : I64) (k : IntConv) : List Byte :=
  if k.value v < 0 then [ch '-']
  else match k with
    | signed => if f.plus then [ch '+'] else []
    | _ => []

/-- The digits, with the commas that the flags ask for. -/
def body (f : Flags) (v : I64) (k : IntConv) : List Byte :=
  let ds := bodyDigits k.base k.upper (k.value v).natAbs
  if f.commas = true ∧ k.base = 10 then group (ch ',') ds else ds

variable (k : IntConv)

theorem base_bounds : 1 < k.base ∧ k.base ≤ 16 := by cases k <;> simp [base]

theorem value_natAbs_lt (v : I64) : (k.value v).natAbs < 2 ^ 64 := by
  have h₁ := v.isLt
  have h₂ := v.toInt_lt
  have h₃ := v.le_toInt
  cases k <;> simp only [value] <;> omega

end IntConv

/-- The field of an integer: its width, where it is padded and with what, its sign,
the places of its commas, its digits and the number it denotes. -/
structure IntField (f : Flags) (k : IntConv) (v : I64) (w : Nat) (F : FieldParts) : Prop where
  length : F.text.length = max w (F.sign.length + F.body.length)
  left : f.left = true → F.left = 0 ∧ F.zeros = 0
  zero : f.left = false → f.zero = true → F.left = 0 ∧ F.right = 0
  blanks : f.left = false → f.zero = false → F.zeros = 0 ∧ F.right = 0
  sign : F.sign = k.sign f v
  commas : f.commas = true → k.base = 10 →
    Grouped (ch ',') (F.body.filter (· ≠ ch ',')) F.body
  no_commas : ¬ (f.commas = true ∧ k.base = 10) → ch ',' ∉ F.body
  digits : ∀ c ∈ F.body, c ≠ ch ',' → ∃ d, d < k.base ∧ c = hexDigit k.upper d
  no_leading : (F.body.filter (· ≠ ch ',')).head? = some (ch '0') →
    F.body.filter (· ≠ ch ',') = [ch '0']
  value : readInt k.base ((F.sign ++ F.body).filter fun c => c ≠ ch '+' ∧ c ≠ ch ',') =
    some (k.value v)

section Field

variable (f : Flags) (k : IntConv) (v : I64)

/-- The digits hold no sign and no comma. -/
theorem not_mem_digits {c : Char} (hc : c ∈ [',', '+', '-', ' ']) :
    ch c ∉ bodyDigits k.base k.upper (k.value v).natAbs :=
  not_mem_bodyDigits k.base_bounds.1 k.base_bounds.2 hc

/-- Without its commas the body is the numeral. -/
theorem body_filter :
    (k.body f v).filter (· ≠ ch ',') = bodyDigits k.base k.upper (k.value v).natAbs := by
  have hmem := not_mem_digits k v (c := ',') (by simp)
  unfold IntConv.body
  simp only
  split_ifs
  · exact group_filter hmem
  · exact filter_sep hmem

theorem mem_body {c : Byte} (hc : c ∈ k.body f v) :
    c = ch ',' ∨ c ∈ bodyDigits k.base k.upper (k.value v).natAbs := by
  by_cases h : c = ch ','
  · exact Or.inl h
  · right
    rw [← body_filter f]
    exact List.mem_filter.mpr ⟨hc, by simpa using h⟩

/-- The body holds no sign. -/
theorem signOf_body : SignOf (k.sign f v) (k.body f v) := by
  constructor
  · unfold IntConv.sign
    cases k <;> simp only [] <;> split_ifs <;> simp
  · intro h
    have hfilter := body_filter f k v
    rw [h] at hfilter
    exact bodyDigits_ne_nil hfilter.symm
  · intro h
    rcases mem_body f k v h with h | h
    · exact absurd h (by decide)
    · exact not_mem_digits k v (by simp) h
  · intro h
    rcases mem_body f k v h with h | h
    · exact absurd h (by decide)
    · exact not_mem_digits k v (by simp) h

/-- Without commas and plus the text is a minus, if the number is negative, and its digits. -/
theorem readInt_text :
    readInt k.base ((k.sign f v ++ k.body f v).filter fun c => c ≠ ch '+' ∧ c ≠ ch ',') =
      some (k.value v) := by
  have hb := k.base_bounds
  have hbody : (k.body f v).filter (fun c => c ≠ ch '+' ∧ c ≠ ch ',') =
      bodyDigits k.base k.upper (k.value v).natAbs := by
    rw [← body_filter f k v]
    apply List.filter_congr
    intro c hc
    have hplus : c ≠ ch '+' := fun h => (signOf_body f k v).not_plus (h ▸ hc)
    simp [hplus]
  have hread : readNat k.base (bodyDigits k.base k.upper (k.value v).natAbs) =
      some (k.value v).natAbs := readNat_bodyDigits hb.1 hb.2
  rw [List.filter_append, hbody]
  by_cases hneg : k.value v < 0
  · have hsign : k.sign f v = [ch '-'] := if_pos hneg
    have hfilter : [ch '-'].filter (fun c => c ≠ ch '+' ∧ c ≠ ch ',') = [ch '-'] := by decide
    rw [hsign, hfilter, List.singleton_append, readInt, if_pos rfl, hread, Option.map_some]
    congr 1
    omega
  · have hfilter : (k.sign f v).filter (fun c => c ≠ ch '+' ∧ c ≠ ch ',') = [] := by
      rcases (signOf_body f k v).sign_eq with h | h | h
      · rw [h]
        rfl
      · unfold IntConv.sign at h
        rw [if_neg hneg] at h
        cases k <;> simp only [] at h
        · split_ifs at h
          · exact absurd h (by decide)
        · exact absurd h (by decide)
        · exact absurd h (by decide)
      · rw [h]
        decide
    rw [hfilter, List.nil_append]
    cases hds : bodyDigits k.base k.upper (k.value v).natAbs with
    | nil => exact absurd hds bodyDigits_ne_nil
    | cons c ds =>
        have hc : c ≠ ch '-' := by
          intro h
          refine not_mem_digits k v (c := '-') (by simp) ?_
          rw [hds, h]
          exact List.mem_cons_self
        rw [hds] at hread
        rw [readInt, if_neg hc, hread, Option.map_some]
        congr 1
        omega

theorem length_text (F : FieldParts) : F.text.length =
    F.left + (F.zeros + F.right) + (F.sign.length + F.body.length) := by
  unfold FieldParts.text
  simp only [List.length_append, List.length_replicate]
  omega

/-- Sign and body, padded to a width, are the field. -/
theorem intField_fieldParts (w : Nat) :
    IntField f k v w (fieldParts f w (k.sign f v) (k.body f v)) := by
  have hb := k.base_bounds
  have hmem := not_mem_digits k v (c := ',') (by simp)
  have hsign : (fieldParts f w (k.sign f v) (k.body f v)).sign = k.sign f v := by
    unfold fieldParts
    simp only
    split_ifs <;> rfl
  have hbody : (fieldParts f w (k.sign f v) (k.body f v)).body = k.body f v := by
    unfold fieldParts
    simp only
    split_ifs <;> rfl
  constructor
  · rw [length_text, hsign, hbody]
    unfold fieldParts
    simp only
    split_ifs <;> simp only <;> omega
  · intro hl
    simp [fieldParts, hl]
  · intro hl hz
    simp [fieldParts, hl, hz]
  · intro hl hz
    simp [fieldParts, hl, hz]
  · exact hsign
  · intro hc hten
    rw [hbody, body_filter]
    unfold IntConv.body
    simp only
    rw [if_pos ⟨hc, hten⟩]
    exact group_grouped hmem
  · intro hc
    rw [hbody]
    unfold IntConv.body
    simp only
    rwa [if_neg hc]
  · intro c hc hne
    rw [hbody] at hc
    rcases mem_body f k v hc with h | h
    · exact absurd h hne
    · rcases List.mem_map.mp h with ⟨d, hd, rfl⟩
      exact ⟨d, numeral_lt hb.1 hd, rfl⟩
  · rw [hbody, body_filter]
    exact bodyDigits_head hb.1 hb.2
  · rw [hsign, hbody]
    exact readInt_text f k v

end Field

/-! ## From the format to the field -/

section Run

variable {H : Host} {V : ArgVec} {fmt : Nat → Byte}

/-- The text of `%d`, from the magnitude as the code computes it. -/
theorem decimal_eq (f : Flags) (v : I64) :
    decimal f v = IntConv.signed.sign f v ++ IntConv.signed.body f v := by
  have h₁ := v.isLt
  have h₂ := v.toInt_lt
  have h₃ := v.le_toInt
  have hslt : v.slt 0 = decide (v.toInt < 0) := by simp [BitVec.slt]
  have hmag : (if v.toInt < 0 then (-(v + 1) + 1).toNat else v.toNat) = v.toInt.natAbs := by
    have hneg : -(v + 1) + 1 = -v := by bv_omega
    rw [hneg]
    rw [BitVec.toInt_eq_toNat_cond]
    split_ifs with h h' h'
    · rw [BitVec.toNat_neg]
      omega
    · omega
    · rw [BitVec.toNat_neg]
      omega
    · omega
  unfold decimal
  simp only [intBody_eq, hslt, decide_eq_true_eq, hmag]
  unfold IntConv.sign IntConv.body IntConv.value IntConv.base IntConv.upper
  by_cases hneg : v.toInt < 0
  · simp [hneg]
  · cases f.plus <;> simp [hneg]

/-- What every conversion of an integer leaves in the scratch buffer. -/
theorem convert_intConv {c : Byte} {k : IntConv} (hk : intConv c = some k) (f : Flags)
    (w pr : I32) (A : Args) : convert H V f w pr c A =
      (let text := k.sign f (nextArg V A).1 ++ k.body f (nextArg V A).1
       (fmtField (bodyOf text H.tmp) text.length w.toInt f.left f.zero, (nextArg V A).2)) := by
  unfold intConv at hk
  split at hk <;> cases hk
  case h_1 hc => simp only [convert, hc, decimal_eq]
  case h_2 hc => simp only [convert, hc, decimal_eq]
  case h_3 hc =>
    have hpos : ¬ ((nextArg V A).1.toNat : Int) < 0 := by omega
    simp [convert, hc, intBody_eq, IntConv.sign, IntConv.body, IntConv.value, IntConv.base,
      IntConv.upper, hpos]
  case h_4 hc =>
    have hpos : ¬ ((nextArg V A).1.toNat : Int) < 0 := by omega
    simp [convert, hc, intBody_eq, IntConv.sign, IntConv.body, IntConv.value, IntConv.base,
      IntConv.upper, hpos]
  case h_5 hc =>
    have hpos : ¬ ((nextArg V A).1.toNat : Int) < 0 := by omega
    simp [convert, hc, intBody_eq, IntConv.sign, IntConv.body, IntConv.value, IntConv.base,
      IntConv.upper, hpos]

/-- The text fits in the scratch buffer. -/
theorem length_text_lt (f : Flags) (k : IntConv) (v : I64) :
    (k.sign f v ++ k.body f v).length < 512 := by
  have hsign : (k.sign f v).length ≤ 1 := by
    rcases (signOf_body f k v).sign_eq with h | h | h <;> simp [h]
  have hdigits : (bodyDigits k.base k.upper (k.value v).natAbs).length ≤ 64 :=
    length_bodyDigits_le k.base_bounds.1 (k.value_natAbs_lt v)
  have hbody : (k.body f v).length ≤ 64 + 63 / 3 := by
    unfold IntConv.body
    simp only
    split_ifs
    · rw [length_group]
      omega
    · omega
  rw [List.length_append]
  omega

/-- The conversion of an integer emits its field and takes one argument. -/
theorem convert_int {c : Byte} {k : IntConv} (hk : intConv c = some k) (f : Flags) {w : I32}
    (hw : 0 ≤ w.toInt) (pr : I32) (A : Args) :
    convert H V f w pr c A =
      ((fieldParts f w.toInt.toNat (k.sign f (nextArg V A).1) (k.body f (nextArg V A).1)).text,
        (nextArg V A).2) := by
  have hlen := length_text_lt f k (nextArg V A).1
  rw [convert_intConv hk]
  simp only
  rw [fmtField_padded f w (by omega), ← padded_parts f _ (signOf_body f k (nextArg V A).1)]
  rw [List.length_append]
  congr 3
  omega

/-- The flags of a conversion. -/
def Params.flagSet (P : Params) : Flags where
  left := P.flags.contains (ch '-')
  zero := P.flags.contains (ch '0')
  commas := P.flags.contains (ch ',')
  plus := P.flags.contains (ch '+')

/-- The width of a conversion, without a bound. -/
def Params.widthVal (P : Params) : Nat := value 10 (P.width.map fun c => c.toNat - 48)

theorem addAll_eq (fs : List Byte) (hfs : ∀ c ∈ fs, isFlag c = true) (f : Flags) :
    f.addAll fs = ⟨f.left || fs.contains (ch '-'), f.zero || fs.contains (ch '0'),
      f.commas || fs.contains (ch ','), f.plus || fs.contains (ch '+')⟩ := by
  induction fs generalizing f with
  | nil => simp [Flags.addAll]
  | cons c fs ih =>
      have hc := hfs c List.mem_cons_self
      have ih := ih (fun c' hc' => hfs c' (List.mem_cons_of_mem _ hc')) ((f.add c).getD f)
      unfold Flags.addAll at ih ⊢
      rw [List.foldl_cons, ih]
      unfold isFlag at hc
      simp only [Bool.or_eq_true, decide_eq_true_eq] at hc
      rcases hc with ((rfl | rfl) | rfl) | rfl <;> simp [Flags.add, ch]

theorem flagSet_eq (P : Params) : ({} : Flags).addAll P.flags = P.flagSet := by
  rw [addAll_eq _ P.flags_ok]
  simp [Params.flagSet]

/-- The accumulator of the width is the width modulo `2 ^ 32`. -/
theorem addDigits_eq (ws : List Byte) (hws : ∀ c ∈ ws, isDigit c = true) (n : Nat) :
    addDigits (BitVec.ofNat 32 n) ws =
      BitVec.ofNat 32 (valueFrom 10 n (ws.map fun c => c.toNat - 48)) := by
  induction ws generalizing n with
  | nil => rfl
  | cons c ws ih =>
      have hc := hws c List.mem_cons_self
      have hdigit : digit? c = some (BitVec.ofNat 32 (c.toNat - 48)) := by
        unfold isDigit digit? at hc
        unfold digit?
        split_ifs at hc ⊢ with h
        · rfl
        · exact absurd hc (by simp)
      have hstep : BitVec.ofNat 32 n * 10 + BitVec.ofNat 32 (c.toNat - 48) =
          BitVec.ofNat 32 (n * 10 + (c.toNat - 48)) := by
        rw [BitVec.ofNat_add, BitVec.ofNat_mul]
        rfl
      have ih := ih (fun c' hc' => hws c' (List.mem_cons_of_mem _ hc')) (n * 10 + (c.toNat - 48))
      unfold addDigits at ih ⊢
      rw [List.foldl_cons, List.map_cons, valueFrom_cons, hdigit, Option.getD_some, hstep, ih]

theorem toInt_width {P : Params} (hw : P.widthVal < 2 ^ 31) :
    (addDigits 0 P.width).toInt = P.widthVal := by
  have heq : addDigits 0 P.width = BitVec.ofNat 32 P.widthVal := addDigits_eq _ P.width_ok 0
  rw [heq, BitVec.toInt_eq_toNat_cond, BitVec.toNat_ofNat, Nat.mod_eq_of_lt (by omega),
    if_pos (by omega)]

theorem toNat_ofNat_byte (c : Byte) : (Char.ofNat c.toNat).toNat = c.toNat := by
  have hlt := c.isLt
  have hvalid : Nat.isValidChar c.toNat := Or.inl (by omega)
  unfold Char.ofNat
  rw [dif_pos hvalid]
  rfl

theorem ch_ofNat (c : Byte) : ch (Char.ofNat c.toNat) = c := by
  unfold ch
  rw [toNat_ofNat_byte, BitVec.ofNat_toNat, BitVec.setWidth_eq]

/-- The character of an integer conversion ends its parameters. -/
theorem ends_of_intConv {c : Byte} {k : IntConv} (hk : intConv c = some k) (P : Params) :
    P.Ends c ∧ c ≠ 0 ∧ c ≠ ch '%' := by
  have hc : c ∈ chs "diuxX" := by
    have hchar : ∀ d : Char, Char.ofNat c.toNat = d → c = ch d := by
      intro d hd
      rw [← hd, ch_ofNat]
    unfold intConv at hk
    split at hk
    case h_1 h => rw [hchar _ h]; decide
    case h_2 h => rw [hchar _ h]; decide
    case h_3 h => rw [hchar _ h]; decide
    case h_4 h => rw [hchar _ h]; decide
    case h_5 h => rw [hchar _ h]; decide
    case h_6 => cases hk
  have hall : ∀ c ∈ chs "diuxX", isDigit c = false ∧ c ≠ ch '.' ∧ isFlag c = false ∧ c ≠ 0 ∧
      c ≠ ch '%' := by decide
  rcases hall c hc with ⟨h₁, h₂, h₃, h₄, h₅⟩
  exact ⟨⟨h₁, fun _ => h₂, fun _ _ => h₃⟩, h₄, h₅⟩

/-- The scan goes past a conversion, having done what the `switch` does for it. -/
theorem scan_convert {S : Scan} {P : Params} {c : Byte} (hc : P.Code c) (hS : S.pc = .head)
    (hat : Holds fmt S.p (ch '%' :: (P.text ++ [c]))) :
    let r := convert H V P.flagSet (addDigits 0 P.width) P.precision c S.args
    ∃ j, let S' := (Scan.step H V fmt)^[j] S
      S'.pc = .head ∧ S'.p = S.p + (P.text.length + 2) ∧ S'.out = S.out ++ r.1 ∧ S'.args = r.2 := by
  rcases hat with ⟨hpct, hat⟩
  -- the character after the `%` is the first of the parameters, or the conversion
  have hnext : fmt (S.p + 1) ≠ 0 ∧ fmt (S.p + 1) ≠ ch '%' := by
    cases htext : P.text with
    | nil =>
        rw [htext] at hat
        rw [hat.1]
        exact ⟨hc.ne_zero, hc.ne_percent htext⟩
    | cons d t =>
        have hd : d ∈ P.text := by
          rw [htext]
          exact List.mem_cons_self
        rw [htext] at hat
        rw [hat.1]
        exact Params.mem_text hd
  have hmoves : Moves H V fmt S (.conv P.flagSet (addDigits 0 P.width) P.precision)
      (S.p + 1 + P.text.length) := by
    have hstep₁ : Scan.step H V fmt S =
        { S with pc := .percent, p := S.p + 1, reads := S.reads ++ [S.p] } := by
      simp only [Scan.step, hS, hpct, if_neg ch_percent_ne_zero, ne_eq, not_true, if_false]
    refine Moves.cons (by rw [hstep₁]) (by rw [hstep₁]) ?_
    rw [hstep₁]
    have hstep₂ : Scan.step H V fmt
        { S with pc := .percent, p := S.p + 1, reads := S.reads ++ [S.p] } =
        { S with pc := .flags {}, p := S.p + 1, reads := S.reads ++ [S.p] ++ [S.p + 1] } := by
      simp only [Scan.step, if_neg hnext.1, if_neg hnext.2]
    refine Moves.cons (by rw [hstep₂]) (by rw [hstep₂]) ?_
    rw [hstep₂, ← flagSet_eq]
    exact Moves.params rfl hat hc.toEnds
  rcases hmoves with ⟨j, hpc, hp, hout, hargs⟩
  have hcode : fmt (S.p + 1 + P.text.length) = c := (holds_append.mp hat).2.1
  refine ⟨j + 1, ?_⟩
  rw [Function.iterate_succ_apply']
  simp only [Scan.step, hpc, hp, hcode, hout, hargs, and_true, true_and]
  omega

/-- A conversion of an integer: the scan goes past it, having taken one argument and emitted
its field. -/
theorem scan_int {S : Scan} {P : Params} {c : Byte} {k : IntConv} (hk : intConv c = some k)
    (hS : S.pc = .head) (hat : Holds fmt S.p (ch '%' :: (P.text ++ [c])))
    (hw : P.widthVal < 2 ^ 31) :
    ∃ (j : Nat) (F : FieldParts), IntField P.flagSet k (nextArg V S.args).1 P.widthVal F ∧
      let S' := (Scan.step H V fmt)^[j] S
      S'.pc = .head ∧ S'.p = S.p + (P.text.length + 2) ∧ S'.out = S.out ++ F.text ∧
        S'.args = (nextArg V S.args).2 := by
  rcases ends_of_intConv hk P with ⟨hends, hc0, hcp⟩
  have hwidth := toInt_width hw
  have hconv := convert_int (H := H) (V := V) hk P.flagSet (w := addDigits 0 P.width)
    (by omega) P.precision S.args
  rw [hwidth, Int.toNat_natCast] at hconv
  have hscan := scan_convert (H := H) (V := V) ⟨hends, hc0, fun _ => hcp⟩ hS hat
  rw [hconv] at hscan
  rcases hscan with ⟨j, hj⟩
  exact ⟨j, _, intField_fieldParts P.flagSet k (nextArg V S.args).1 P.widthVal, hj⟩

/-- `%-0+,12d`: the blanks stand on the right. -/
theorem scan_int_left : ∃ (j : Nat) (F : FieldParts),
    IntField ⟨true, true, true, true⟩ .signed 1234567 12 F ∧
      ((Scan.step .bare ⟨1, fun _ => 1234567⟩ (formatOf "%-0+,12d"))^[j] {}).out = F.text := by
  let P : Params := ⟨chs "-0+,", chs "12", none, by decide, by decide, by decide, by simp⟩
  have hat : Holds (formatOf "%-0+,12d") 0 (ch '%' :: (P.text ++ [ch 'd'])) :=
    ⟨rfl, rfl, rfl, rfl, rfl, rfl, rfl, rfl, trivial⟩
  rcases scan_int (H := .bare) (V := ⟨1, fun _ => 1234567⟩) (S := {}) (k := .signed) rfl rfl hat
    (by decide) with ⟨j, F, hF, _, _, hout, _⟩
  exact ⟨j, F, hF, hout⟩

end Run

example : (hcFormat .bare ⟨1, fun _ => 1234567⟩ (formatOf "%-0+,12d") 12).out =
    chs "+1,234,567  " := by decide

end Hlang.Runtime
