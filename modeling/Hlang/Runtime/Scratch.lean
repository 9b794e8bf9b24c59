import Hlang.Runtime.ZList

/-!
# Hlang.Runtime.Scratch — the scratch buffer of the formatter

Most conversions build their text in `tmp` and pass its length to `fmt_field`.
The texts of integers fit, whatever the flags are. For a double the length is
what `snprintf` returns, which is the length of the whole text also where only
the front of it was stored.
-/

namespace Hlang.Runtime

/-- What a conversion leaves in `tmp`: the bytes that it has stored there, and the length that it
passes to `fmt_field`. -/
structure Scratch where
  bytes : List Byte
  len : Int

/-- The conversions of doubles. -/
def isFloat (c : Byte) : Bool := c = ch 'f' || c = ch 'e' || c = ch 'g'

/-- The whole text of a double. -/
def floatText (H : Host) (f : Flags) (prec : I32) (c : Byte) (v : I64) : List Byte :=
  H.fpText f.plus (if prec.toInt < 0 then 6 else prec.toInt) (Char.ofNat c.toNat) v

/-- The scratch buffer before the call of `fmt_field`, for the conversions that use it. -/
def scratch (H : Host) (V : ArgVec) (f : Flags) (prec : I32) (c : Byte) (A : Args) :
    Option Scratch :=
  let v := (nextArg V A).1
  let whole := fun (text : List Byte) => some ⟨text, text.length⟩
  match Char.ofNat c.toNat with
  | 'd' | 'i' => whole (decimal f v)
  | 'u' => whole (intBody v.toNat 10 false f.commas false)
  | 'x' => whole (intBody v.toNat 16 false false false)
  | 'X' => whole (intBody v.toNat 16 true false false)
  | 'p' | 'P' =>
      let hex := intBody v.toNat 16 true false false
      whole (List.replicate (16 - hex.length) (ch '0') ++ hex)
  | 'f' | 'e' | 'g' =>
      let text := floatText H f prec c v
      some ⟨text.take 511, toInt32 text.length⟩
  | _ => none

/-- Only stored bytes are emitted, and the buffer has held them. -/
structure Scratch.Safe (T : Scratch) : Prop where
  nonneg : 0 ≤ T.len
  stored : T.len ≤ T.bytes.length
  fits : T.bytes.length ≤ 512

variable {H : Host} {V : ArgVec} {fmt : Nat → Byte}

/-- The field of a conversion that uses the buffer is what `fmt_field` makes of it. -/
theorem convert_scratch {f : Flags} {prec : I32} {c : Byte} {A : Args} {T : Scratch}
    (h : scratch H V f prec c A = some T) (w : I32) :
    ∃ zero, (convert H V f w prec c A).1 =
      fmtField (bodyOf T.bytes H.tmp) T.len w.toInt f.left zero := by
  refine ⟨f.zero, ?_⟩
  unfold scratch floatText at h
  unfold convert
  dsimp only at h ⊢
  generalize Char.ofNat c.toNat = d at h ⊢
  split at h <;> first | (cases h; rfl) | cases h

/-! ## The texts of integers -/

/-- A conversion of an integer stores its text whole. -/
theorem whole_safe {text : List Byte} (h : text.length ≤ 512) :
    Scratch.Safe ⟨text, text.length⟩ where
  nonneg := Int.natCast_nonneg _
  stored := le_refl _
  fits := h

theorem length_decimal (f : Flags) (v : I64) : (decimal f v).length ≤ 512 := by
  rw [decimal_eq]
  exact Nat.le_of_lt (length_text_lt f .signed v)

/-- The text of an unsigned integer. -/
theorem length_intBody (v : I64) {base : Nat} (hb : 1 < base) (upper commas : Bool) :
    (intBody v.toNat base upper commas false).length ≤ 85 := by
  have hdigits : (bodyDigits base upper v.toNat).length ≤ 64 := length_bodyDigits_le hb v.isLt
  rw [intBody_eq]
  simp only [Bool.false_eq_true, if_false, List.nil_append]
  split_ifs
  · rw [Numeral.length_group]
    omega
  · omega

/-! ## The texts of doubles -/

/-- The length that `snprintf` returns is one of the bytes it has stored. -/
def FloatFits (n : Nat) : Prop := 0 ≤ toInt32 n ∧ toInt32 n ≤ 511

theorem float_safe_iff (text : List Byte) :
    Scratch.Safe ⟨text.take 511, toInt32 text.length⟩ ↔ FloatFits text.length := by
  have hbounds := toInt32_bounds text.length
  have hlen : (text.take 511).length = min 511 text.length := List.length_take
  constructor
  · intro h
    have hstored := h.stored
    simp only [hlen] at hstored
    exact ⟨h.nonneg, by omega⟩
  · intro h
    rcases h with ⟨hnonneg, hle⟩
    constructor
    · exact hnonneg
    · simp only [hlen]
      omega
    · simp only [hlen]
      omega

theorem isFloat_eq (c : Byte) : isFloat c =
    (byteChar c = 'f' || byteChar c = 'e' || byteChar c = 'g' : Bool) := by
  have hf := byteChar_eq_iff (b := c) (c := 'f') (by decide)
  have he := byteChar_eq_iff (b := c) (c := 'e') (by decide)
  have hg := byteChar_eq_iff (b := c) (c := 'g') (by decide)
  unfold isFloat
  simp only [hf, he, hg]

/-- Of one conversion: only the length of the text of a double matters. -/
theorem scratch_safe_iff {f : Flags} {prec : I32} {c : Byte} {A : Args} {T : Scratch}
    (h : scratch H V f prec c A = some T) : T.Safe ↔
      (isFloat c = true → FloatFits (floatText H f prec c (nextArg V A).1).length) := by
  have hfloat := isFloat_eq c
  have hdec := length_decimal f (nextArg V A).1
  have hint := fun upper commas =>
    length_intBody (nextArg V A).1 (by decide : 1 < 10) upper commas
  have hhex := fun upper => length_intBody (nextArg V A).1 (by decide : 1 < 16) upper false
  have hpad : ∀ text : List Byte, text.length ≤ 85 →
      (List.replicate (16 - text.length) (ch '0') ++ text).length ≤ 512 := by
    intro text htext
    rw [List.length_append, List.length_replicate]
    omega
  -- an integer is always safe
  have hsafe : ∀ {text : List Byte}, isFloat c = false → text.length ≤ 512 →
      (Scratch.Safe ⟨text, text.length⟩ ↔
        (isFloat c = true → FloatFits (floatText H f prec c (nextArg V A).1).length)) := by
    intro text hno htext
    rw [hno]
    exact ⟨fun _ h => absurd h Bool.false_ne_true, fun _ => whole_safe htext⟩
  have hdouble : isFloat c = true →
      (Scratch.Safe ⟨(floatText H f prec c (nextArg V A).1).take 511,
        toInt32 (floatText H f prec c (nextArg V A).1).length⟩ ↔
        (isFloat c = true → FloatFits (floatText H f prec c (nextArg V A).1).length)) := by
    intro hyes
    rw [float_safe_iff]
    exact ⟨fun h _ => h, fun h => h hyes⟩
  unfold scratch at h
  dsimp only at h
  unfold byteChar at hfloat
  generalize Char.ofNat c.toNat = d at h hfloat
  split at h
  · cases h
    exact hsafe hfloat hdec
  · cases h
    exact hsafe hfloat hdec
  · cases h
    exact hsafe hfloat (Nat.le_trans (hint false f.commas) (by decide))
  · cases h
    exact hsafe hfloat (Nat.le_trans (hhex false) (by decide))
  · cases h
    exact hsafe hfloat (Nat.le_trans (hhex true) (by decide))
  · cases h
    exact hsafe hfloat (hpad _ (hhex true))
  · cases h
    exact hsafe hfloat (hpad _ (hhex true))
  · cases h
    exact hdouble hfloat
  · cases h
    exact hdouble hfloat
  · cases h
    exact hdouble hfloat
  · exact nomatch h

/-! ## Runs -/

/-- A scan at the `switch` passes a length of stored bytes to `fmt_field`. -/
def Scan.Safe (H : Host) (V : ArgVec) (fmt : Nat → Byte) (S : Scan) : Prop :=
  ∀ f w prec T, S.pc = .conv f w prec → scratch H V f prec (fmt S.p) S.args = some T → T.Safe

/-- A scan at the conversion of a double has a text for it that `tmp` can hold. -/
def Scan.Fits (H : Host) (V : ArgVec) (fmt : Nat → Byte) (S : Scan) : Prop :=
  ∀ f w prec, S.pc = .conv f w prec → isFloat (fmt S.p) = true →
    FloatFits (floatText H f prec (fmt S.p) (nextArg V S.args).1).length

theorem scratch_float {f : Flags} {prec : I32} {c : Byte} {A : Args} (h : isFloat c = true) :
    ∃ T, scratch H V f prec c A = some T := by
  unfold isFloat at h
  simp only [Bool.or_eq_true, decide_eq_true_eq] at h
  rcases h with (rfl | rfl) | rfl
  · exact ⟨_, rfl⟩
  · exact ⟨_, rfl⟩
  · exact ⟨_, rfl⟩

theorem Scan.safe_iff (S : Scan) : S.Safe H V fmt ↔ S.Fits H V fmt := by
  constructor
  · intro h f w prec hpc hfloat
    have hscratch : ∃ T, scratch H V f prec (fmt S.p) S.args = some T := scratch_float hfloat
    rcases hscratch with ⟨T, hT⟩
    exact (scratch_safe_iff hT).mp (h f w prec T hpc hT) hfloat
  · intro h f w prec T hpc hT
    exact (scratch_safe_iff hT).mpr (h f w prec hpc)

/-- In a run every length passed for a text in `tmp` is one of bytes stored there, exactly if every
text of a double on the way fits. The field of such a conversion is what `fmt_field` makes of the
buffer and the length. -/
theorem run_safe_iff (H : Host) (V : ArgVec) (fmt : Option (Nat → Byte)) :
    ((∀ k, (hcFormat H V fmt k).Safe H V (fmt.getD fun _ => 0)) ↔
      ∀ k, (hcFormat H V fmt k).Fits H V (fmt.getD fun _ => 0)) ∧
    ∀ f w prec c A T, scratch H V f prec c A = some T →
      ∃ zero, (convert H V f w prec c A).1 =
        fmtField (bodyOf T.bytes H.tmp) T.len w.toInt f.left zero := by
  constructor
  · exact forall_congr' fun k => Scan.safe_iff (hcFormat H V fmt k)
  · intro f w prec c A T hT
    exact convert_scratch hT w

/-- A host whose text of a double is that of 1.0 under `%f`. -/
def oneHost : Host :=
  { Host.bare with fpText := fun _ prec _ _ => chs "1." ++ List.replicate prec.toNat (ch '0') }

/-- The bits of 1.0. -/
def oneBits : I64 := 0x3FF0000000000000

/-- `%.600f` of 1.0: of 602 bytes 511 are stored. -/
theorem long_not_safe :
    ¬ ∀ k, (hcFormat oneHost ⟨1, fun _ => oneBits⟩ (some (formatOf "%.600f")) k).Safe oneHost
      ⟨1, fun _ => oneBits⟩ (formatOf "%.600f") := by
  intro h
  have hfits : FloatFits (floatText oneHost {} 600 (ch 'f') oneBits).length :=
    (Scan.safe_iff _).mp (h 8) {} 0 600 rfl (by decide)
  have hlen : (floatText oneHost {} 600 (ch 'f') oneBits).length = 602 := by
    show (chs "1." ++ List.replicate 600 (ch '0')).length = 602
    rw [List.length_append, List.length_replicate]
    rfl
  rw [hlen] at hfits
  exact absurd hfits.2 (by decide)

end Hlang.Runtime
