import Hlang.Runtime.Compose
import Hlang.Runtime.ReadBack

/-!
# Hlang.Runtime.PackedChars — character constants

The lexer packs the bytes of a character constant into a word, the last one
first; the runtime takes them out of the word again, the lowest first, for
`PutChars` and `%c`. Only NULs are lost on the way.
-/

namespace Hlang.Runtime

open Hlang.Lexer

/-- `HC_PutChars`. -/
def hcPutChars (chars : I64) : List Byte := emitPackedChars chars

/-! ## Spellings of bytes -/

/-- The text `cs` of a character constant is one way to write the bytes `w`. -/
inductive Spells : List Char → List Byte → Prop
  | nil : Spells [] []
  /-- a byte that stands for itself -/
  | plain {b : Byte} {cs : List Char} {w : List Byte} (hquote : b ≠ ch '\'') (hdollar : b ≠ ch '$')
      (hslash : b ≠ ch '\\') (h : Spells cs w) : Spells (byteChar b :: cs) (b :: w)
  | dollar {cs : List Char} {w : List Byte} (hone : peekIs '$' cs = false) (h : Spells cs w) :
      Spells ('$' :: cs) (ch '$' :: w)
  | dollars {cs : List Char} {w : List Byte} (h : Spells cs w) :
      Spells ('$' :: '$' :: cs) (ch '$' :: w)
  | escape {b : Byte} {cs : List Char} {w : List Byte} (hx : b ≠ ch 'x') (h : Spells cs w) :
      Spells ('\\' :: byteChar b :: cs) (ch (Lexer.escape (byteChar b)) :: w)
  /-- a hexadecimal escape of one digit -/
  | hex {d : Char} {cs : List Char} {w : List Byte} (hd : isXDigit d = true)
      (hone : peekXDigit cs = false) (h : Spells cs w) :
      Spells ('\\' :: 'x' :: d :: cs) (BitVec.ofNat 8 (digitNat d) :: w)
  | hexes {d d' : Char} {cs : List Char} {w : List Byte} (hd : isXDigit d = true)
      (hd' : isXDigit d' = true) (h : Spells cs w) :
      Spells ('\\' :: 'x' :: d :: d' :: cs) (BitVec.ofNat 8 (digitNat d * 16 + digitNat d') :: w)

theorem lexCharsInto_hex {quote d : Char} {cs : List Char} (hq : '\\' ≠ quote)
    (hd : isXDigit d = true) (hone : peekXDigit cs = false) :
    lexCharsInto quote ('\\' :: 'x' :: d :: cs) =
      (lexCharsInto quote cs).push (Char.ofNat (digitNat d)) := by
  conv => lhs; rw [lexCharsInto.eq_def]
  have hpeek : peekXDigit (d :: cs) = true := hd
  simp [hq, hpeek, hone]

theorem lexCharsInto_hexes {quote d d' : Char} {cs : List Char} (hq : '\\' ≠ quote)
    (hd : isXDigit d = true) (hd' : isXDigit d' = true) :
    lexCharsInto quote ('\\' :: 'x' :: d :: d' :: cs) =
      (lexCharsInto quote cs).push (Char.ofNat (digitNat d * 16 + digitNat d')) := by
  conv => lhs; rw [lexCharsInto.eq_def]
  have hpeek : peekXDigit (d :: d' :: cs) = true := hd
  have hpeek' : peekXDigit (d' :: cs) = true := hd'
  simp [hq, hpeek, hpeek']

theorem isXDigit_lt {d : Char} (h : isXDigit d = true) : d.toNat < 256 := by
  unfold isXDigit Char.isDigit at h
  simp only [Bool.or_eq_true, Bool.and_eq_true, decide_eq_true_eq, Char.le_def,
    UInt32.le_iff_toNat_le] at h
  have hle : d.toNat ≤ 102 := by
    rcases h with (h | h) | h
    · exact Nat.le_trans h.2 (by decide)
    · exact Nat.le_trans h.2 (by decide)
    · exact Nat.le_trans h.2 (by decide)
  omega

theorem digitNat_lt {d : Char} (h : isXDigit d = true) : digitNat d < 16 := by
  have hall : ∀ n < 256, isXDigit (Char.ofNat n) = true → digitNat (Char.ofNat n) < 16 := by
    decide +kernel
  have hd := hall d.toNat (isXDigit_lt h)
  rw [Char.ofNat_toNat] at hd
  exact hd h

/-- A character below 256 is a byte. -/
theorem byteChar_ch {c : Char} (hc : c.toNat < 256) : byteChar (ch c) = c := by
  unfold byteChar ch
  rw [BitVec.toNat_ofNat, Nat.mod_eq_of_lt hc, Char.ofNat_toNat]

theorem byteChar_ofNat {n : Nat} (hn : n < 256) : byteChar (BitVec.ofNat 8 n) = Char.ofNat n := by
  unfold byteChar
  rw [BitVec.toNat_ofNat, Nat.mod_eq_of_lt hn]

theorem byteChar_lt (b : Byte) : (byteChar b).toNat < 256 := by
  unfold byteChar
  rw [toNat_ofNat_byte]
  exact b.isLt

/-- What an escape of one character stands for is a byte. -/
theorem escape_lt (b : Byte) : (Lexer.escape (byteChar b)).toNat < 256 := by
  unfold Lexer.escape
  split <;> first | decide | exact byteChar_lt b

theorem byteChar_ne {b : Byte} {c : Char} (hc : c.toNat < 256) (h : b ≠ ch c) : byteChar b ≠ c := by
  intro heq
  exact h ((byteChar_eq_iff (byteChar_ch hc)).mp heq)

/-- The lexer decodes every spelling, up to the quote. -/
theorem Spells.lexCharsInto {cs : List Char} {w : List Byte} (h : Spells cs w) (rest : List Char) :
    Lexer.lexCharsInto '\'' (cs ++ '\'' :: rest) = ⟨w.map byteChar, rest, []⟩ := by
  have hslash : '\\' ≠ '\'' := by decide
  have hdollar : '$' ≠ '\'' := by decide
  induction h with
  | nil => exact lexCharsInto_quote '\'' rest
  | plain hq hd hs _ ih =>
      rw [List.cons_append, lexCharsInto_plain (byteChar_ne (by decide) hq)
        (byteChar_ne (by decide) hd) (byteChar_ne (by decide) hs), ih]
      rfl
  | @dollar cs w hone _ ih =>
      have hone' : peekIs '$' (cs ++ '\'' :: rest) = false := by
        cases cs with
        | nil => rfl
        | cons c cs => exact hone
      rw [List.cons_append, lexCharsInto_dollar hdollar hone', ih]
      rfl
  | dollars _ ih =>
      rw [List.cons_append, List.cons_append, lexCharsInto_dollars hdollar, ih]
      rfl
  | @escape b cs w hx _ ih =>
      rw [List.cons_append, List.cons_append,
        lexCharsInto_escape hslash (byteChar_ne (by decide) hx), ih, List.map_cons,
        byteChar_ch (escape_lt b)]
      rfl
  | @hex d cs w hd hone _ ih =>
      have hone' : peekXDigit (cs ++ '\'' :: rest) = false := by
        cases cs with
        | nil => rfl
        | cons c cs => exact hone
      have hlt := digitNat_lt hd
      simp only [List.cons_append]
      rw [lexCharsInto_hex hslash hd hone', ih, List.map_cons, byteChar_ofNat (by omega)]
      rfl
  | @hexes d d' cs w hd hd' _ ih =>
      have hlt := digitNat_lt hd
      have hlt' := digitNat_lt hd'
      simp only [List.cons_append]
      rw [lexCharsInto_hexes hslash hd hd', ih, List.map_cons, byteChar_ofNat (by omega)]
      rfl

/-- Every string of bytes has a spelling. -/
theorem exists_spells (w : List Byte) : ∃ cs, Spells cs w := by
  have hall : ∀ n < 256, ∃ d < 16, ∃ d' < 16, n = d * 16 + d' := by
    intro n hn
    exact ⟨n / 16, by omega, n % 16, by omega, by omega⟩
  have hdigit : ∀ n < 16, ∃ d, isXDigit d = true ∧ digitNat d = n := by
    intro n hn
    refine ⟨"0123456789abcdef".toList.getD n '0', ?_⟩
    interval_cases n <;> decide
  induction w with
  | nil => exact ⟨[], .nil⟩
  | cons b w ih =>
      rcases ih with ⟨cs, hcs⟩
      rcases hall b.toNat b.isLt with ⟨n, hn, n', hn', hb⟩
      rcases hdigit n hn with ⟨d, hd, rfl⟩
      rcases hdigit n' hn' with ⟨d', hd', rfl⟩
      have hspells := Spells.hexes hd hd' hcs
      rw [← hb, BitVec.ofNat_toNat, BitVec.setWidth_eq] at hspells
      exact ⟨_, hspells⟩

/-! ## Packing and unpacking -/

/-- The word of a character constant has its bytes as digits, as far as they fit. -/
theorem toNat_packChars (w : List Byte) :
    (packChars (w.map byteChar)).toNat = Nat.ofDigits 256 (w.map BitVec.toNat) % 2 ^ 64 := by
  unfold packChars
  induction w with
  | nil => rfl
  | cons b w ih =>
      have hb := b.isLt
      have hbyte : (byteChar b).toNat = b.toNat := toNat_ofNat_byte b
      rw [List.map_cons, List.foldr_cons, List.map_cons, Nat.ofDigits_cons, BitVec.toNat_or,
        BitVec.toNat_shiftLeft, BitVec.toNat_ofNat, hbyte, ih, Nat.mod_eq_of_lt (a := b.toNat) (by omega)]
      generalize Nat.ofDigits 256 (w.map BitVec.toNat) = n
      -- the shift leaves room for the byte
      have hshift : (n % 2 ^ 64) <<< 8 % 2 ^ 64 = (n % 2 ^ 56) <<< 8 := by
        rw [Nat.shiftLeft_eq, Nat.shiftLeft_eq]
        omega
      rw [hshift, ← Nat.shiftLeft_add_eq_or_of_lt hb, Nat.shiftLeft_eq]
      show _ = (b.toNat + 256 * n) % 2 ^ 64
      omega

/-- The bytes of a word, from the lowest on. -/
theorem emitPackedChars_ofDigits {w : List Byte} (hw : w.length ≤ 8) {v : I64}
    (hv : v.toNat = Nat.ofDigits 256 (w.map BitVec.toNat)) :
    emitPackedChars v = w.filter (· ≠ 0) := by
  have hdigits : ∀ d ∈ w.map BitVec.toNat, d < 256 := by
    intro d hd
    rcases List.mem_map.mp hd with ⟨b, -, rfl⟩
    exact b.isLt
  have hbyte : ∀ i, (v >>> (8 * i)).setWidth 8 = w[i]?.getD 0 := by
    intro i
    apply BitVec.eq_of_toNat_eq
    have hpow : 2 ^ (8 * i) = 256 ^ i := Nat.pow_mul 2 8 i
    rw [BitVec.toNat_setWidth, BitVec.toNat_ushiftRight, Nat.shiftRight_eq_div_pow, hv, hpow,
      Nat.ofDigits_div_pow_eq_ofDigits_drop i (by decide) _ hdigits, ← List.map_drop]
    cases hdrop : w.drop i with
    | nil =>
        have hge : w.length ≤ i := List.drop_eq_nil_iff.mp hdrop
        rw [List.getElem?_eq_none hge]
        rfl
    | cons b rest =>
        have hget : w[i]? = some b := by
          rw [← List.head?_drop, hdrop]
          rfl
        have hb := b.isLt
        rw [hget, List.map_cons, Nat.ofDigits_cons, Option.getD_some]
        show (b.toNat + 256 * _) % 256 = _
        omega
  have hbytes : (List.range 8).map (fun i => (v >>> (8 * i)).setWidth 8) =
      w ++ List.replicate (8 - w.length) 0 := by
    apply List.ext_getElem
    · simp only [List.length_map, List.length_range, List.length_append, List.length_replicate]
      omega
    · intro i h₁ h₂
      rw [List.getElem_map, List.getElem_range, hbyte]
      by_cases hi : i < w.length
      · rw [List.getElem_append_left hi, List.getElem?_eq_getElem hi, Option.getD_some]
      · rw [List.getElem_append_right (by omega), List.getElem_replicate,
          List.getElem?_eq_none (by omega), Option.getD_none]
  unfold emitPackedChars
  rw [hbytes, List.filter_append]
  simp

/-- What is packed is emitted again, without the NULs. -/
theorem emitPackedChars_packChars {w : List Byte} (hw : w.length ≤ 8) :
    emitPackedChars (packChars (w.map byteChar)) = w.filter (· ≠ 0) := by
  apply emitPackedChars_ofDigits hw
  rw [toNat_packChars]
  apply Nat.mod_eq_of_lt
  have hlt : Nat.ofDigits 256 (w.map BitVec.toNat) < 256 ^ (w.map BitVec.toNat).length := by
    apply Nat.ofDigits_lt_base_pow_length (by decide)
    intro d hd
    rcases List.mem_map.mp hd with ⟨b, -, rfl⟩
    exact b.isLt
  rw [List.length_map] at hlt
  exact Nat.lt_of_lt_of_le hlt (Nat.pow_le_pow_right (by decide) hw)

theorem code_char : Params.Code
    ⟨[], [], none, Params.no_flags, Params.no_width, Params.no_head, Params.no_prec⟩ (ch 'c') :=
  ⟨⟨by decide, fun _ => by decide, fun _ _ => by decide⟩, by decide, fun _ => by decide⟩

/-- `%c` without flags and width. -/
def charPiece : Piece :=
  .conv ⟨[], [], none, Params.no_flags, Params.no_width, Params.no_head, Params.no_prec⟩ (ch 'c')
    code_char

theorem output_charPiece (H : Host) (V : ArgVec) :
    charPiece.output H V = emitPackedChars (V.arg 0) := by
  have hlen : (emitPackedChars (V.arg 0)).length < 2 ^ 63 := by
    have hle : (emitPackedChars (V.arg 0)).length ≤ ((List.range 8).map _).length :=
      List.length_filter_le _ _
    rw [List.length_map, List.length_range] at hle
    omega
  have hfield := fmtField_padded {} 0 hlen H.tmp
  have hzero : ((0 : I32).toInt - ((emitPackedChars (V.arg 0)).length : Int)).toNat = 0 := by
    have hw : (0 : I32).toInt = 0 := rfl
    omega
  rw [hzero, padded_none] at hfield
  rw [← hfield, ← (taken_zero (V := V)).nextArg.1]
  rfl

/-! ## Character constants -/

section CharConst

variable {E : ScanEnv} {s : Scanner}

/-- What `lexToken` makes of a character constant. -/
theorem token_char (cs : List Char) :
    let L := lexCharsInto '\'' cs
    let t : Token :=
      { kind := .charLit, text := String.ofList L.text, ival := packChars L.text, loc := s.here }
    ∃ s', s.token E '\'' cs = some (t, s') ∧
      s'.dirs.errors = s.dirs.errors ++ L.errs.map ((s.moveTo cs).here, ·) ++
        if 8 < L.text.length then [(s.here, "char constant longer than 8 characters")] else [] := by
  refine ⟨_, rfl, ?_⟩
  have herrs := Scanner.errors_dirs ((s.moveTo cs).moveTo (lexCharsInto '\'' cs).rest) (s.moveTo cs).here
    (lexCharsInto '\'' cs).errs
  rw [Scanner.moveTo_dirs, Scanner.moveTo_dirs] at herrs
  by_cases hlong : 8 < (lexCharsInto '\'' cs).text.length
  · simp only [if_pos hlong]
    rw [← herrs]
    rfl
  · simp only [if_neg hlong]
    rw [← herrs, List.append_nil]

/-- Every spelling of at most 8 bytes makes a token whose value `PutChars` and `%c` emit as these
bytes without the NULs; a constant of more bytes is reported, however it is spelled. -/
theorem packed_chars {cs : List Char} {w : List Byte} (h : Spells cs w) (rest : List Char)
    (E : ScanEnv) (s : Scanner) :
    (∃ t s', s.token E '\'' (cs ++ '\'' :: rest) = some (t, s') ∧ t.kind = .charLit ∧
      t.text = String.ofList (w.map byteChar) ∧
      (w.length ≤ 8 → s'.dirs.errors = s.dirs.errors ∧ hcPutChars t.ival = w.filter (· ≠ 0) ∧
        ∀ H, Prints H ⟨1, fun _ => t.ival⟩ (formatOf "%c") (w.filter (· ≠ 0)))) ∧
    ∀ cs', 8 < (lexCharsInto '\'' cs').text.length → ∃ t s', s.token E '\'' cs' = some (t, s') ∧
      (s.here, "char constant longer than 8 characters") ∈ s'.dirs.errors := by
  constructor
  · rcases token_char (E := E) (s := s) (cs ++ '\'' :: rest) with ⟨s', htoken, herrs⟩
    rw [h.lexCharsInto rest] at htoken herrs
    refine ⟨_, s', htoken, rfl, rfl, ?_⟩
    intro hw
    have hemit := emitPackedChars_packChars hw
    have hshort : ¬ 8 < (w.map byteChar).length := by
      rw [List.length_map]
      omega
    refine ⟨?_, hemit, ?_⟩
    · rw [herrs, if_neg hshort]
      simp
    · intro H
      have hprints := prints_piece (H := H) (V := ⟨1, fun _ => packChars (w.map byteChar)⟩) charPiece
      rw [output_charPiece] at hprints
      rw [← hemit]
      exact hprints
  · intro cs' hlong
    rcases token_char (E := E) (s := s) cs' with ⟨s', htoken, herrs⟩
    refine ⟨_, s', htoken, ?_⟩
    rw [herrs, if_pos hlong]
    simp

end CharConst

/-- The constant `'H\x69\0$$'`. -/
theorem sample_packed :
    let cs := ['H', '\\', 'x', '6', '9', '\\', '0', '$', '$']
    ∃ t s', Scanner.token .bare ⟨[], {}⟩ '\'' (cs ++ ['\'']) = some (t, s') ∧
      hcPutChars t.ival = chs "Hi$" := by
  have hspells : Spells ['H', '\\', 'x', '6', '9', '\\', '0', '$', '$'] [72, 105, 0, 36] := by
    refine .plain (b := 72) (by decide) (by decide) (by decide) ?_
    refine @Spells.hexes '6' '9' _ _ (by decide) (by decide) ?_
    exact .escape (b := 48) (by decide) (.dollars .nil)
  rcases (packed_chars hspells [] .bare ⟨[], {}⟩).1 with ⟨t, s', htoken, _, _, hshort⟩
  exact ⟨t, s', htoken, (hshort (by decide)).2.1.trans (by decide)⟩

end Hlang.Runtime
