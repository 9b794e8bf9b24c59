import Hlang.Runtime.Date
import Hlang.Runtime.IntField
import Mathlib.Data.Rat.Floor

/-!
# Hlang.Runtime.Clock — the clock of the runtime

`HC_Now` encodes an instant as a `CDate`, the day number above the fraction of the
day in units of `2 ^ -32`. The fraction is cut off, and so are the seconds that
`fmt_date` computes from it.
-/

namespace Hlang.Runtime

open Calendar Numeral

/-! ## The texts of dates and times -/

theorem digitVal_slash : digitVal (ch '/') = none := by decide

theorem digitVal_colon : digitVal (ch ':') = none := by decide

theorem digitVals_append (s t : List Byte) :
    digitVals (s ++ t) = (digitVals s).bind fun ds => (digitVals t).map (ds ++ ·) := by
  unfold digitVals
  rw [List.mapM_append]
  cases s.mapM digitVal with
  | none => rfl
  | some ds =>
      cases t.mapM digitVal with
      | none => rfl
      | some ds' => rfl

theorem digitVals_zeros (n : Nat) : digitVals (List.replicate n (ch '0')) = some (List.replicate n 0) := by
  induction n with
  | zero => rfl
  | succ n ih =>
      unfold digitVals at ih ⊢
      rw [List.replicate_succ, List.mapM_cons, ih]
      rfl

theorem value_zeros (n : Nat) (ds : List Nat) : value 10 (List.replicate n 0 ++ ds) = value 10 ds := by
  induction n with
  | zero => rfl
  | succ n ih => exact ih

theorem padDec_eq (n v : Nat) :
    padDec n v = List.replicate (n - (bodyDigits 10 false v).length) (ch '0') ++
      bodyDigits 10 false v := by
  have hbody : intBody v 10 false false false = bodyDigits 10 false v := intBody_eq v 10 false false false
  unfold padDec
  rw [hbody]

theorem digitVals_padDec (n v : Nat) :
    ∃ ds, digitVals (padDec n v) = some ds ∧ value 10 ds = v := by
  have hdigits : digitVals (bodyDigits 10 false v) = some (numeral 10 v) :=
    digitVals_map fun d hd => bodyDigits_lt (by decide) (by decide) hd
  refine ⟨List.replicate (n - (bodyDigits 10 false v).length) 0 ++ numeral 10 v, ?_, ?_⟩
  · rw [padDec_eq, digitVals_append, digitVals_zeros, hdigits]
    rfl
  · rw [value_zeros, value_numeral]

theorem padDec_injective (n : Nat) {v v' : Nat} (h : padDec n v = padDec n v') : v = v' := by
  rcases digitVals_padDec n v with ⟨ds, hds, hv⟩
  rcases digitVals_padDec n v' with ⟨ds', hds', hv'⟩
  rw [h, hds'] at hds
  rw [← hv, ← hv', Option.some.inj hds]

/-- A character that is no digit is not in a number. -/
theorem not_mem_padDec {c : Byte} (hc : digitVal c = none) (n v : Nat) : c ∉ padDec n v := by
  intro hmem
  rcases digitVals_padDec n v with ⟨ds, hds, -⟩
  rcases List.append_of_mem hmem with ⟨s, t, hst⟩
  rw [hst, digitVals_append] at hds
  unfold digitVals at hds
  rw [List.mapM_cons, hc] at hds
  cases hs : s.mapM digitVal with
  | none =>
      rw [hs] at hds
      exact nomatch hds
  | some ds =>
      rw [hs] at hds
      exact nomatch hds

/-- A text is cut at the first `c` in one way. -/
theorem cut_unique {c : Byte} {s s' t t' : List Byte} (hs : c ∉ s) (hs' : c ∉ s')
    (h : s ++ c :: t = s' ++ c :: t') : s = s' ∧ t = t' := by
  induction s generalizing s' with
  | nil =>
      cases s' with
      | nil => exact ⟨rfl, (List.cons.inj h).2⟩
      | cons b s' =>
          have hhead := (List.cons.inj h).1
          exact absurd (hhead ▸ List.mem_cons_self) hs'
  | cons a s ih =>
      cases s' with
      | nil =>
          have hhead := (List.cons.inj h).1
          exact absurd (hhead ▸ List.mem_cons_self) hs
      | cons b s' =>
          have hcons := List.cons.inj h
          have ih := ih (fun hc => hs (List.mem_cons_of_mem _ hc))
            (fun hc => hs' (List.mem_cons_of_mem _ hc)) hcons.2
          exact ⟨by rw [hcons.1, ih.1], ih.2⟩

/-- A number ends before the first character that is no digit. -/
theorem padDec_append_injective {c : Byte} (hc : digitVal c = none) (n : Nat) {v v' : Nat}
    {t t' : List Byte} (h : padDec n v ++ c :: t = padDec n v' ++ c :: t') : v = v' ∧ t = t' := by
  have hcut := cut_unique (not_mem_padDec hc n v) (not_mem_padDec hc n v') h
  exact ⟨padDec_injective n hcut.1, hcut.2⟩

theorem padDecInt_injective (n : Nat) {v v' : Int} (h : padDecInt n v = padDecInt n v') : v = v' := by
  have hminus : ∀ n v, padDec n v ≠ [] ∧ (padDec n v).head? ≠ some (ch '-') := by
    intro n v
    constructor
    · rw [padDec_eq]
      exact List.append_ne_nil_of_right_ne_nil _ bodyDigits_ne_nil
    · intro hhead
      exact not_mem_padDec (by decide) n v (List.mem_of_head? hhead)
  unfold padDecInt at h
  split_ifs at h with hv hv' hv'
  · have habs := padDec_injective _ (List.cons.inj h).2
    omega
  · exact absurd (h ▸ rfl) (hminus n v'.natAbs).2
  · exact absurd (h ▸ rfl) (hminus n v.natAbs).2
  · have habs := padDec_injective _ h
    omega

/-- Different dates have different texts. -/
theorem dateText_injective : Function.Injective dateText := by
  intro D D' h
  unfold dateText at h
  simp only [List.append_assoc, List.cons_append] at h
  have hmonth := padDec_append_injective digitVal_slash 2 h
  have hday := padDec_append_injective digitVal_slash 2 hmonth.2
  exact Date.ext (padDecInt_injective 4 hday.2) hmonth.1 hday.1

theorem clockText_injective {h m s h' m' s' : Nat} (heq : clockText h m s = clockText h' m' s') :
    h = h' ∧ m = m' ∧ s = s' := by
  unfold clockText at heq
  simp only [List.append_assoc, List.cons_append] at heq
  have hhour := padDec_append_injective digitVal_colon 2 heq
  have hminute := padDec_append_injective digitVal_colon 2 hhour.2
  exact ⟨hhour.1, hminute.1, padDec_injective 2 hminute.2⟩

/-! ## The instant and its encoding -/

/-- What `clock_gettime` gives at or after the epoch. -/
structure Timespec where
  tvSec : Nat
  tvNsec : Nat
  /-- a `time_t` -/
  sec_lt : tvSec < 2 ^ 63
  nsec_lt : tvNsec < 10 ^ 9

/-- `HC_Now`, with the operations on doubles exact. -/
def hcNow (ts : Timespec) : I64 :=
  let days := BitVec.ofNat 64 (ts.tvSec / 86400 + 719528)
  let secs := ts.tvSec % 86400
  let frac := ⌊((secs : ℚ) + ts.tvNsec * (1 / 10 ^ 9)) * 4294967296 / 86400⌋.toNat
  (days <<< 32) ||| (BitVec.ofNat 64 frac &&& 0xFFFFFFFF)

theorem january_le : 1 ≤ 12 := by decide

theorem first_of_january : 1 ≤ Calendar.monthLength 1970 1 := by decide

/-- 1 January 1970. -/
def epoch : Date where
  year := 1970
  month := 1
  day := 1
  month_pos := Nat.one_pos
  month_le := january_le
  day_pos := Nat.one_pos
  day_le := first_of_january

namespace Timespec

/-- The days since 1 January of year 0. -/
def days (ts : Timespec) : Nat := ts.tvSec / 86400 + 719528

/-- The date of the instant. -/
def date (ts : Timespec) : Date := civilDate (epoch.dayNumber + (ts.tvSec / 86400 : Nat))

/-- The second of the day. -/
def second (ts : Timespec) : Nat := ts.tvSec % 86400

/-- The time of the day. -/
def timeText (ts : Timespec) : List Byte :=
  clockText (ts.second / 3600) (ts.second / 60 % 60) (ts.second % 60)

/-- A multiple of `2 ^ -32` of a day lies between the beginning of the second and the instant. -/
def Ticked (ts : Timespec) : Prop :=
  ∃ k, ts.second * 2 ^ 32 ≤ k * 86400 ∧
    k * 86400 * 10 ^ 9 ≤ (ts.second * 10 ^ 9 + ts.tvNsec) * 2 ^ 32

end Timespec

/-- The fraction of the day, cut off. -/
def Timespec.fraction (ts : Timespec) : Nat :=
  (ts.second * 10 ^ 9 + ts.tvNsec) * 2 ^ 32 / (86400 * 10 ^ 9)

section Now

variable (ts : Timespec)

theorem fraction_eq :
    ⌊(((ts.tvSec % 86400 : Nat) : ℚ) + ts.tvNsec * (1 / 10 ^ 9)) * 4294967296 / 86400⌋.toNat =
      ts.fraction := by
  have hquotient : (((ts.tvSec % 86400 : Nat) : ℚ) + ts.tvNsec * (1 / 10 ^ 9)) * 4294967296 / 86400 =
      ((((ts.second * 10 ^ 9 + ts.tvNsec) * 2 ^ 32 : Nat) : ℚ) / ((86400 * 10 ^ 9 : Nat) : ℚ)) := by
    unfold Timespec.second
    push_cast
    ring
  rw [hquotient, Rat.floor_natCast_div_natCast, ← Int.natCast_ediv, Int.toNat_natCast]
  unfold Timespec.fraction
  rfl

theorem fraction_lt : ts.fraction < 2 ^ 32 := by
  have hnsec := ts.nsec_lt
  have hsecond : ts.second < 86400 := Nat.mod_lt _ (by decide)
  unfold Timespec.fraction
  omega

theorem fraction_le :
    ts.fraction * 86400000000000 ≤ (ts.second * 1000000000 + ts.tvNsec) * 4294967296 := by
  have hle := Nat.div_mul_le_self ((ts.second * 10 ^ 9 + ts.tvNsec) * 2 ^ 32) (86400 * 10 ^ 9)
  unfold Timespec.fraction
  norm_num only at hle ⊢
  exact hle

theorem toNat_hcNow : (hcNow ts).toNat = ts.days % 2 ^ 32 * 2 ^ 32 + ts.fraction := by
  have hlt := fraction_lt ts
  have hdays := ts.sec_lt
  have hmask : (BitVec.ofNat 64 ts.fraction &&& 0xFFFFFFFF).toNat = ts.fraction := by
    rw [BitVec.toNat_and, BitVec.toNat_ofNat, Nat.mod_eq_of_lt (by omega)]
    exact (Nat.and_two_pow_sub_one_eq_mod ts.fraction 32).trans (Nat.mod_eq_of_lt hlt)
  have hshift : (BitVec.ofNat 64 ts.days <<< 32).toNat = (ts.days % 2 ^ 32) <<< 32 := by
    rw [BitVec.toNat_shiftLeft, BitVec.toNat_ofNat, Nat.shiftLeft_eq, Nat.shiftLeft_eq]
    omega
  unfold hcNow
  simp only [fraction_eq]
  rw [BitVec.toNat_or, hmask]
  show (BitVec.ofNat 64 ts.days <<< 32).toNat ||| _ = _
  rw [hshift, ← Nat.shiftLeft_add_eq_or_of_lt hlt, Nat.shiftLeft_eq]

theorem dayFraction_hcNow : dayFraction (hcNow ts) = ts.fraction := by
  have hlt := fraction_lt ts
  unfold dayFraction
  rw [BitVec.toNat_and, toNat_hcNow]
  have hmask := Nat.and_two_pow_sub_one_eq_mod (ts.days % 2 ^ 32 * 2 ^ 32 + ts.fraction) 32
  refine hmask.trans ?_
  omega

/-- The day number keeps its low 32 bits, as a signed number. -/
theorem dayOf_hcNow : dayOf (hcNow ts) = ts.days ↔ ts.days < 2 ^ 31 := by
  have hlt := fraction_lt ts
  have hnat := toNat_hcNow ts
  unfold dayOf
  rw [BitVec.toInt_sshiftRight, Int.shiftRight_eq_div_pow, BitVec.toInt_eq_toNat_cond, hnat]
  split_ifs with h
  · omega
  · omega

/-- The seconds that `%T` shows are those of the day iff a tick lies in the second. -/
theorem seconds_hcNow : ts.fraction * 86400 / 2 ^ 32 = ts.second ↔ ts.Ticked := by
  have hnsec := ts.nsec_lt
  constructor
  · intro h
    refine ⟨ts.fraction, ?_, ?_⟩
    · omega
    · have hle := Nat.div_mul_le_self ((ts.second * 10 ^ 9 + ts.tvNsec) * 2 ^ 32) (86400 * 10 ^ 9)
      rw [← Nat.mul_assoc] at hle
      exact hle
  · rintro ⟨k, hk, hk'⟩
    have hle : k ≤ ts.fraction := by
      unfold Timespec.fraction
      rw [Nat.le_div_iff_mul_le (by decide), ← Nat.mul_assoc]
      exact hk'
    have hfraction := fraction_le ts
    omega

theorem date_eq : ts.date = civilDate ts.days := by
  unfold Timespec.date Timespec.days
  have hepoch : epoch.dayNumber = 719528 := by decide
  rw [hepoch]
  congr 1
  push_cast
  omega

/-- `%D` shows the date of the instant as long as the day number has 31 bits. -/
theorem date_hcNow : fmtDate (hcNow ts) false = dateText ts.date ↔ ts.days < 2 ^ 31 := by
  rw [fmtDate_day, date_eq, dateText_injective.eq_iff, civilDate_bijective.1.eq_iff]
  exact dayOf_hcNow ts

theorem time_hcNow : fmtDate (hcNow ts) true = ts.timeText ↔ ts.Ticked := by
  rw [← seconds_hcNow, fmtDate_time, dayFraction_hcNow]
  unfold Timespec.timeText
  constructor
  · intro h
    have hparts := clockText_injective h
    omega
  · intro h
    rw [h]

/-- The date and the time that `%D` and `%T` show are those of the instant iff its day number has
31 bits and a tick of the `CDate` lies between the beginning of its second and the instant. -/
theorem now_shown_iff :
    (fmtDate (hcNow ts) false = dateText ts.date ∧ fmtDate (hcNow ts) true = ts.timeText) ↔
      ts.days < 2 ^ 31 ∧ ts.Ticked := by
  rw [date_hcNow, time_hcNow]

end Now

/-- One second after the epoch. -/
def firstSecond : Timespec where
  tvSec := 1
  tvNsec := 0
  sec_lt := by decide
  nsec_lt := by decide

/-- The first second after the epoch is shown as midnight. -/
theorem second_not_shown :
    fmtDate (hcNow firstSecond) true = chs "00:00:00" ∧ firstSecond.timeText = chs "00:00:01" ∧
      fmtDate (hcNow firstSecond) true ≠ firstSecond.timeText := by
  have hfraction : firstSecond.fraction * 86400 / 2 ^ 32 = 0 := by decide
  have hshown : fmtDate (hcNow firstSecond) true = chs "00:00:00" := by
    rw [fmtDate_time, dayFraction_hcNow, hfraction]
    decide
  have htime : firstSecond.timeText = chs "00:00:01" := by decide
  refine ⟨hshown, htime, ?_⟩
  rw [hshown, htime]
  decide

end Hlang.Runtime
