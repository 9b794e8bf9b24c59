import Hlang.Lib.Calendar
import Hlang.Runtime.Format

/-!
# Hlang.Runtime.Date — the dates of the runtime

`fmt_date` takes a day number apart into eras of 400 years that begin on 1 March,
the years of an era, and months that begin on 1 March too. What it prints is the
date with that day number; its unsigned subtractions do not wrap.
-/

namespace Hlang.Runtime

open Calendar

/-! ## Years and months that begin in March -/

/-- `yoe`, the year of the era. -/
def yearOfEra (doe : Nat) : Nat := (doe - doe / 1460 + doe / 36524 - doe / 146096) / 365

/-- The days of the era before a year of the era. -/
def eraDays (yoe : Nat) : Nat := 365 * yoe + yoe / 4 - yoe / 100

/-- `doy`, the day of the year. -/
def dayOfYear (doe : Nat) : Nat := doe - eraDays (yearOfEra doe)

/-- `mp`, the month of the year. -/
def monthOfYear (doy : Nat) : Nat := (5 * doy + 2) / 153

/-- The days of the year before a month of the year. -/
def monthDays (mp : Nat) : Nat := (153 * mp + 2) / 5

/-- A day of an era: of its century, of four years, and of the year. -/
structure EraDay (doe b q t r : Nat) : Prop where
  day : doe = 36524 * b + 1461 * q + 365 * t + r
  century : b < 4
  quarter : q < 25
  year : t < 4
  rest : r ≤ 365
  /-- the leap day is the last day of four years, of which no century has 25 -/
  leap : r = 365 → t = 3 ∧ q < 24

theorem exists_eraDay {doe : Nat} (h : doe < 146096) : ∃ b q t r, EraDay doe b q t r := by
  have hcentury : doe % 36524 < 36524 := Nat.mod_lt _ (by decide)
  refine ⟨doe / 36524, doe % 36524 / 1461, min (doe % 36524 % 1461 / 365) 3,
    doe % 36524 % 1461 - 365 * min (doe % 36524 % 1461 / 365) 3, ?_⟩
  constructor <;> omega

theorem EraDay.yearOfEra {doe b q t r : Nat} (h : EraDay doe b q t r) :
    yearOfEra doe = 100 * b + 4 * q + t := by
  rcases h with ⟨hday, hb, hq, ht, hr, hleap⟩
  have hera : doe / 146096 = 0 := by omega
  have hcentury : doe / 36524 = b := by omega
  have hquarter : doe / 1460 = 25 * b + q + (24 * b + q + 365 * t + r) / 1460 := by omega
  unfold Hlang.Runtime.yearOfEra
  rw [hera, hcentury, hquarter]
  -- the last days of four years count one leap day too many
  by_cases hlast : 24 * b + q + 365 * t + r < 1460
  · have hzero : (24 * b + q + 365 * t + r) / 1460 = 0 := by omega
    rw [hzero]
    omega
  · have hone : (24 * b + q + 365 * t + r) / 1460 = 1 := by omega
    rw [hone]
    omega

theorem EraDay.eraDays {doe b q t r : Nat} (h : EraDay doe b q t r) :
    eraDays (Hlang.Runtime.yearOfEra doe) = 36524 * b + 1461 * q + 365 * t := by
  have hyear := h.yearOfEra
  rcases h with ⟨hday, hb, hq, ht, hr, hleap⟩
  unfold Hlang.Runtime.eraDays
  rw [hyear]
  omega

/-- The years of an era partition its days; the 366th day of a year is the leap day of the year
that begins in it. -/
structure EraYear (doe : Nat) : Prop where
  year : yearOfEra doe < 400
  start : eraDays (yearOfEra doe) ≤ doe
  day : dayOfYear doe ≤ 365
  leap : dayOfYear doe = 365 → IsLeap (yearOfEra doe + 1 : Nat)

theorem eraYear {doe : Nat} (h : doe < 146097) : EraYear doe := by
  by_cases hlast : doe = 146096
  · subst hlast
    constructor <;> decide
  · rcases exists_eraDay (by omega : doe < 146096) with ⟨b, q, t, r, hd⟩
    have hyear := hd.yearOfEra
    have hdays := hd.eraDays
    rcases hd with ⟨hday, hb, hq, ht, hr, hleap⟩
    have hrest : dayOfYear doe = r := by
      unfold dayOfYear
      omega
    constructor
    · omega
    · omega
    · omega
    · intro h365
      rw [hrest] at h365
      have hleap := hleap h365
      rw [hyear]
      unfold IsLeap
      omega

/-- The months of a year partition its days. -/
theorem monthDays_le {doy : Nat} (h : doy ≤ 365) :
    monthOfYear doy ≤ 11 ∧ monthDays (monthOfYear doy) ≤ doy ∧
      doy < monthDays (monthOfYear doy + 1) := by
  unfold monthOfYear monthDays
  omega

/-! ## The date of a day number -/

/-- The month of the calendar. -/
def monthOf (mp : Nat) : Nat := if mp < 10 then mp + 3 else mp - 9

/-- The year of the calendar, for a month of the year that begins in March of `y`. -/
def yearOf (y : Int) (mp : Nat) : Int := if mp < 10 then y else y + 1

theorem monthOf_bounds {mp : Nat} (h : mp ≤ 11) : 1 ≤ monthOf mp ∧ monthOf mp ≤ 12 := by
  unfold monthOf
  split_ifs <;> omega

/-- The length of a month that is not cut short by the end of the year. -/
theorem monthLength_monthOf (y : Int) {mp : Nat} (h : mp ≤ 10) :
    monthLength (yearOf y mp) (monthOf mp) = monthDays (mp + 1) - monthDays mp := by
  interval_cases mp <;> rfl

/-- The days of the year of the calendar before a month that begins in March or later. -/
theorem daysBefore_march (y : Int) {mp : Nat} (h : mp ≤ 9) :
    daysBefore y (mp + 3) = 31 + february y + monthDays mp := by
  have hfebruary : daysBefore y 3 = 31 + february y := by
    have hall : daysBefore y 3 = 0 + monthLength y 1 + monthLength y 2 := rfl
    rw [hall]
    rfl
  induction mp with
  | zero => rw [hfebruary]; rfl
  | succ mp ih =>
      have hlength := monthLength_monthOf y (by omega : mp ≤ 10)
      have hyear : yearOf y mp = y := if_pos (by omega)
      have hmonth : monthOf mp = mp + 3 := if_pos (by omega)
      rw [hyear, hmonth] at hlength
      have hmono : monthDays mp ≤ monthDays (mp + 1) := by
        unfold monthDays
        omega
      have hsucc := daysBefore_succ y (by omega : 1 ≤ mp + 3)
      rw [Nat.add_right_comm, hsucc, ih (by omega), hlength]
      omega

/-- The days from 1 January of year 0 to 1 March of a year of an era. -/
theorem yearStart_march (era : Int) (yoe : Nat) (h : yoe < 400) :
    yearStart (yoe + era * 400) + 31 + february (yoe + era * 400) =
      era * 146097 + eraDays yoe + 60 ∧
    yearStart (yoe + era * 400 + 1) = era * 146097 + eraDays yoe + 366 := by
  have hmarch : yearStart (yoe + era * 400 + 1) = era * 146097 + eraDays yoe + 366 := by
    unfold yearStart eraDays
    omega
  have hsucc := yearStart_succ (yoe + era * 400)
  exact ⟨by omega, hmarch⟩

/-- A day of an era lies in its month. -/
theorem day_le_monthLength {doe : Nat} (h : doe < 146097) (era : Int) :
    dayOfYear doe - monthDays (monthOfYear (dayOfYear doe)) + 1 ≤
      monthLength (yearOf (yearOfEra doe + era * 400) (monthOfYear (dayOfYear doe)))
        (monthOf (monthOfYear (dayOfYear doe))) := by
  have hyear := eraYear h
  have hmonth := monthDays_le hyear.day
  have hday := hyear.day
  have hleap := hyear.leap
  generalize dayOfYear doe = doy at *
  generalize monthOfYear doy = mp at *
  by_cases hfebruary : mp ≤ 10
  · rw [monthLength_monthOf _ hfebruary]
    omega
  · -- February, at the end of the year
    have hmp : mp = 11 := by omega
    subst hmp
    have hlength : monthLength (yearOf (yearOfEra doe + era * 400) 11) (monthOf 11) =
        february (yearOfEra doe + era * 400 + 1) := rfl
    have hdays : monthDays 11 = 337 := rfl
    have hbounds := february_bounds (yearOfEra doe + era * 400 + 1)
    rw [hlength, hdays]
    by_cases hlast : doy = 365
    · have hleap : IsLeap (yearOfEra doe + era * 400 + 1) := by
        have hleap := hleap hlast
        unfold IsLeap at hleap ⊢
        omega
      have h29 : february (yearOfEra doe + era * 400 + 1) = 29 := if_pos hleap
      omega
    · omega

/-- The date with the day number `n`, by the computation of `fmt_date`. -/
def civilDate (n : Int) : Date :=
  let era := (n - 60) / 146097
  let doe := ((n - 60) % 146097).toNat
  let mp := monthOfYear (dayOfYear doe)
  have hdoe : doe < 146097 := by omega
  have hmonth := monthOf_bounds (monthDays_le (eraYear hdoe).day).1
  { year := yearOf (yearOfEra doe + era * 400) mp
    month := monthOf mp
    day := dayOfYear doe - monthDays mp + 1
    month_pos := hmonth.1
    month_le := hmonth.2
    day_pos := Nat.le_add_left 1 _
    day_le := day_le_monthLength hdoe era }

theorem dayNumber_civilDate (n : Int) : (civilDate n).dayNumber = n := by
  have hdoe : ((n - 60) % 146097).toNat < 146097 := by omega
  have hyear := eraYear hdoe
  have hmonth := monthDays_le hyear.day
  have hstart := hyear.start
  have hmarch := yearStart_march ((n - 60) / 146097) _ hyear.year
  unfold Date.dayNumber civilDate
  simp only
  generalize hy : yearOfEra ((n - 60) % 146097).toNat = yoe at *
  have hday : dayOfYear ((n - 60) % 146097).toNat + eraDays yoe = ((n - 60) % 146097).toNat := by
    unfold dayOfYear
    rw [hy]
    omega
  generalize dayOfYear ((n - 60) % 146097).toNat = doy at *
  generalize hmp : monthOfYear doy = mp at *
  by_cases hearly : mp < 10
  · have hyear : yearOf (yoe + (n - 60) / 146097 * 400) mp = yoe + (n - 60) / 146097 * 400 :=
      if_pos hearly
    have hmonthOf : monthOf mp = mp + 3 := if_pos hearly
    have hbefore := daysBefore_march (yoe + (n - 60) / 146097 * 400) (by omega : mp ≤ 9)
    rw [hyear, hmonthOf, hbefore]
    push_cast
    omega
  · have hyear : yearOf (yoe + (n - 60) / 146097 * 400) mp = yoe + (n - 60) / 146097 * 400 + 1 :=
      if_neg hearly
    have hbefore : daysBefore (yoe + (n - 60) / 146097 * 400 + 1) (monthOf mp) + 306 =
        monthDays mp := by
      have hcases : mp = 10 ∨ mp = 11 := by omega
      rcases hcases with rfl | rfl
      · rfl
      · rfl
    rw [hyear]
    push_cast
    omega

/-- The dates and the integers correspond. -/
theorem civilDate_bijective : Function.Bijective civilDate := by
  constructor
  · intro m n h
    rw [← dayNumber_civilDate m, ← dayNumber_civilDate n, h]
  · intro D
    exact ⟨D.dayNumber, Date.dayNumber_injective (dayNumber_civilDate _)⟩

theorem civilDate_succ (n : Int) : civilDate (n + 1) = (civilDate n).next := by
  apply Date.dayNumber_injective
  rw [dayNumber_civilDate, Date.dayNumber_next, dayNumber_civilDate]

/-! ## The computation on machine words -/

theorem ofInt_sub (a b : Int) : BitVec.ofInt 64 a - BitVec.ofInt 64 b = BitVec.ofInt 64 (a - b) := by
  rw [BitVec.sub_eq_add_neg, ← BitVec.ofInt_neg, ← BitVec.ofInt_add, Int.sub_eq_add_neg]

/-- Unsigned operations that do not wrap. -/
theorem ofNat_udiv {a b : Nat} (ha : a < 2 ^ 64) (hb : b < 2 ^ 64) :
    (BitVec.ofNat 64 a).udiv (BitVec.ofNat 64 b) = BitVec.ofNat 64 (a / b) := by
  apply BitVec.eq_of_toNat_eq
  rw [BitVec.udiv_eq, BitVec.toNat_udiv, BitVec.toNat_ofNat, BitVec.toNat_ofNat, BitVec.toNat_ofNat,
    Nat.mod_eq_of_lt ha, Nat.mod_eq_of_lt hb, Nat.mod_eq_of_lt]
  exact Nat.lt_of_le_of_lt (Nat.div_le_self a b) ha

theorem ofNat_sub {a b : Nat} (ha : a < 2 ^ 64) (h : b ≤ a) :
    BitVec.ofNat 64 a - BitVec.ofNat 64 b = BitVec.ofNat 64 (a - b) :=
  BitVec.ofNat_sub_ofNat_of_le a b (Nat.lt_of_le_of_lt h ha) h

theorem era_eq {z : Int} (hz : -2 ^ 32 ≤ z ∧ z < 2 ^ 32) :
    (if BitVec.sle 0 (BitVec.ofInt 64 z) then BitVec.ofInt 64 z
      else BitVec.ofInt 64 z - 146096).sdiv 146097 = BitVec.ofInt 64 (z / 146097) := by
  have hself : ∀ i : Int, -2 ^ 33 ≤ i → i < 2 ^ 33 → (BitVec.ofInt 64 i).toInt = i := by
    intro i h₁ h₂
    apply BitVec.toInt_ofInt_eq_self (by decide) <;> omega
  have hdiv : ∀ i : Int, -2 ^ 33 ≤ i → i < 2 ^ 33 →
      (BitVec.ofInt 64 i).sdiv 146097 = BitVec.ofInt 64 (i.tdiv 146097) := by
    intro i h₁ h₂
    have h := BitVec.toInt_sdiv_of_ne_or_ne (BitVec.ofInt 64 i) 146097#64 (Or.inr (by decide))
    rw [hself i h₁ h₂] at h
    rw [← BitVec.ofInt_toInt (x := (BitVec.ofInt 64 i).sdiv 146097)]
    exact congrArg _ h
  have hsle : BitVec.sle 0 (BitVec.ofInt 64 z) = decide (0 ≤ z) := by
    rw [BitVec.sle_eq_decide, hself z (by omega) (by omega)]
    rfl
  rw [hsle]
  by_cases hpos : 0 ≤ z
  · rw [if_pos (by simpa using hpos), hdiv z (by omega) (by omega), Int.tdiv_eq_ediv_of_nonneg hpos]
  · rw [if_neg (by simpa using hpos)]
    have hsub := ofInt_sub z 146096
    have hlit : BitVec.ofInt 64 146096 = 146096 := rfl
    rw [hlit] at hsub
    rw [hsub, hdiv _ (by omega) (by omega)]
    congr 1
    have hneg : (z - 146096).tdiv 146097 = -((146096 - z).tdiv 146097) := by
      rw [← Int.neg_tdiv]
      congr 1
      omega
    rw [hneg, Int.tdiv_eq_ediv_of_nonneg (by omega)]
    omega

/-- The subtractions of `fmt_date` on a day of an era are those of the natural numbers. -/
structure Ordered (doe : Nat) : Prop where
  quarter : doe / 1460 ≤ doe
  century : doe / 146096 ≤ doe - doe / 1460 + doe / 36524
  years : yearOfEra doe / 100 ≤ 365 * yearOfEra doe + yearOfEra doe / 4
  year : eraDays (yearOfEra doe) ≤ doe
  day : monthDays (monthOfYear (dayOfYear doe)) ≤ dayOfYear doe

theorem ordered {doe : Nat} (h : doe < 146097) : Ordered doe := by
  have hyear := eraYear h
  have hmonth := monthDays_le hyear.day
  have hlt := hyear.year
  have hday := hyear.day
  constructor
  · omega
  · omega
  · omega
  · exact hyear.start
  · exact hmonth.2.1

section Unsigned

variable {doe : Nat}

theorem doe_quotients (h : doe < 146097) :
    (BitVec.ofNat 64 doe).udiv 1460 = BitVec.ofNat 64 (doe / 1460) ∧
    (BitVec.ofNat 64 doe).udiv 36524 = BitVec.ofNat 64 (doe / 36524) ∧
    (BitVec.ofNat 64 doe).udiv 146096 = BitVec.ofNat 64 (doe / 146096) := by
  refine ⟨ofNat_udiv ?_ (by decide), ofNat_udiv ?_ (by decide), ofNat_udiv ?_ (by decide)⟩
  all_goals omega

theorem yoe_quotients {yoe : Nat} (h : yoe < 400) :
    365 * BitVec.ofNat 64 yoe = BitVec.ofNat 64 (365 * yoe) ∧
    (BitVec.ofNat 64 yoe).udiv 4 = BitVec.ofNat 64 (yoe / 4) ∧
    (BitVec.ofNat 64 yoe).udiv 100 = BitVec.ofNat 64 (yoe / 100) := by
  refine ⟨BitVec.ofNat_mul_ofNat 365 yoe, ofNat_udiv ?_ (by decide), ofNat_udiv ?_ (by decide)⟩
  all_goals omega

theorem yoe_eq (h : doe < 146097) :
    (BitVec.ofNat 64 doe - (BitVec.ofNat 64 doe).udiv 1460 + (BitVec.ofNat 64 doe).udiv 36524 -
      (BitVec.ofNat 64 doe).udiv 146096).udiv 365 = BitVec.ofNat 64 (yearOfEra doe) := by
  have hordered := ordered h
  rcases doe_quotients h with ⟨hquarter, hcentury, hera⟩
  rw [hquarter, hcentury, hera, ofNat_sub (by omega) hordered.quarter, BitVec.ofNat_add_ofNat,
    ofNat_sub (by omega) hordered.century]
  exact ofNat_udiv (by omega) (by decide)

theorem doy_eq (h : doe < 146097) :
    BitVec.ofNat 64 doe - (365 * BitVec.ofNat 64 (yearOfEra doe) +
      (BitVec.ofNat 64 (yearOfEra doe)).udiv 4 - (BitVec.ofNat 64 (yearOfEra doe)).udiv 100) =
      BitVec.ofNat 64 (dayOfYear doe) := by
  have hordered := ordered h
  have hlt := (eraYear h).year
  rcases yoe_quotients hlt with ⟨hdays, hquarter, hcentury⟩
  rw [hdays, hquarter, hcentury, BitVec.ofNat_add_ofNat, ofNat_sub (by omega) hordered.years]
  exact ofNat_sub (by omega) hordered.year

theorem linear_eq (a b n : Nat) :
    BitVec.ofNat 64 a * BitVec.ofNat 64 n + BitVec.ofNat 64 b = BitVec.ofNat 64 (a * n + b) := by
  rw [BitVec.ofNat_mul_ofNat, BitVec.ofNat_add_ofNat]

theorem mp_eq {doy : Nat} (h : doy ≤ 365) :
    (5 * BitVec.ofNat 64 doy + 2).udiv 153 = BitVec.ofNat 64 (monthOfYear doy) := by
  have hsum : 5 * BitVec.ofNat 64 doy + 2 = BitVec.ofNat 64 (5 * doy + 2) := linear_eq 5 2 doy
  rw [hsum]
  exact ofNat_udiv (by omega) (by decide)

theorem monthDays_eq {mp : Nat} (h : mp ≤ 11) :
    (153 * BitVec.ofNat 64 mp + 2).udiv 5 = BitVec.ofNat 64 (monthDays mp) := by
  have hsum : 153 * BitVec.ofNat 64 mp + 2 = BitVec.ofNat 64 (153 * mp + 2) := linear_eq 153 2 mp
  rw [hsum]
  exact ofNat_udiv (by omega) (by decide)

theorem day_eq {doy : Nat} (h : doy ≤ 365) :
    BitVec.ofNat 64 doy - (153 * BitVec.ofNat 64 (monthOfYear doy) + 2).udiv 5 + 1 =
      BitVec.ofNat 64 (doy - monthDays (monthOfYear doy) + 1) := by
  have hmonth := monthDays_le h
  rw [monthDays_eq hmonth.1, ofNat_sub (by omega) hmonth.2.1]
  exact BitVec.ofNat_add_ofNat _ 1

theorem month_eq {mp : Nat} (h : mp ≤ 11) :
    (if (BitVec.ofNat 64 mp).ult 10 then BitVec.ofNat 64 mp + 3 else BitVec.ofNat 64 mp - 9) =
      BitVec.ofNat 64 (monthOf mp) := by
  interval_cases mp <;> rfl

end Unsigned

/-- The words that `fmt_date` computes on the way from a day number to its date. -/
structure CivilWords where
  era : I64
  doe : I64
  yoe : I64
  doy : I64
  mp : I64

def civilWords (days : I64) : CivilWords :=
  let z := days - 719528 + 719468
  let era := (if BitVec.sle 0 z then z else z - 146096).sdiv 146097
  let doe := z - era * 146097
  let yoe := (doe - doe.udiv 1460 + doe.udiv 36524 - doe.udiv 146096).udiv 365
  let doy := doe - (365 * yoe + yoe.udiv 4 - yoe.udiv 100)
  ⟨era, doe, yoe, doy, (5 * doy + 2).udiv 153⟩

theorem civil_words (days : I64) :
    let W := civilWords days
    let m := if W.mp.ult 10 then W.mp + 3 else W.mp - 9
    let y := W.yoe + W.era * 400
    civil days =
      (m, W.doy - (153 * W.mp + 2).udiv 5 + 1, if BitVec.ule m 2 then y + 1 else y) := rfl

theorem civilWords_eq {n : Int} (hn : -2 ^ 31 ≤ n ∧ n < 2 ^ 31) :
    let doe := ((n - 60) % 146097).toNat
    civilWords (BitVec.ofInt 64 n) =
      { era := BitVec.ofInt 64 ((n - 60) / 146097), doe := BitVec.ofNat 64 doe
        yoe := BitVec.ofNat 64 (yearOfEra doe), doy := BitVec.ofNat 64 (dayOfYear doe)
        mp := BitVec.ofNat 64 (monthOfYear (dayOfYear doe)) } := by
  have hdoe : ((n - 60) % 146097).toNat < 146097 := by omega
  have hyear := eraYear hdoe
  -- the signed part
  have hz : BitVec.ofInt 64 n - 719528 + 719468 = BitVec.ofInt 64 (n - 60) := by
    have hsub := ofInt_sub n 719528
    have hadd := BitVec.ofInt_add (n := 64) (n - 719528) 719468
    have hlit : BitVec.ofInt 64 719528 = 719528 ∧ BitVec.ofInt 64 719468 = 719468 := ⟨rfl, rfl⟩
    rw [hlit.1] at hsub
    rw [hlit.2] at hadd
    rw [hsub, ← hadd]
    congr 1
    omega
  have hera := era_eq (z := n - 60) (by omega)
  have hrest : BitVec.ofInt 64 (n - 60) - BitVec.ofInt 64 ((n - 60) / 146097) * 146097 =
      BitVec.ofNat 64 ((n - 60) % 146097).toNat := by
    have hmul := BitVec.ofInt_mul (n := 64) ((n - 60) / 146097) 146097
    have hlit : BitVec.ofInt 64 146097 = 146097 := rfl
    rw [hlit] at hmul
    rw [← hmul, ofInt_sub, ← BitVec.ofInt_natCast]
    congr 1
    omega
  unfold civilWords
  simp only [hz, hera, hrest, yoe_eq hdoe, doy_eq hdoe, mp_eq hyear.day]

theorem civil_eq {n : Int} (hn : -2 ^ 31 ≤ n ∧ n < 2 ^ 31) :
    civil (BitVec.ofInt 64 n) = (BitVec.ofNat 64 (civilDate n).month,
      BitVec.ofNat 64 (civilDate n).day, BitVec.ofInt 64 (civilDate n).year) := by
  have hdoe : ((n - 60) % 146097).toNat < 146097 := by omega
  have hyear := eraYear hdoe
  have hmonth := monthDays_le hyear.day
  have hyearEq : BitVec.ofNat 64 (yearOfEra ((n - 60) % 146097).toNat) +
      BitVec.ofInt 64 ((n - 60) / 146097) * 400 =
      BitVec.ofInt 64 (yearOfEra ((n - 60) % 146097).toNat + (n - 60) / 146097 * 400) := by
    rw [BitVec.ofInt_add, BitVec.ofInt_mul, BitVec.ofInt_natCast]
    rfl
  rw [civil_words]
  simp only [civilWords_eq hn, day_eq hyear.day, month_eq hmonth.1, hyearEq]
  refine congrArg _ (congrArg _ ?_)
  show _ = BitVec.ofInt 64 (yearOf _ (monthOfYear (dayOfYear _)))
  have hle := hmonth.1
  generalize monthOfYear (dayOfYear ((n - 60) % 146097).toNat) = mp at hle ⊢
  by_cases hmarch : mp < 10
  · have hlate : (BitVec.ofNat 64 (monthOf mp)).ule 2 = false := by
      interval_cases mp <;> rfl
    have hself : yearOf (yearOfEra ((n - 60) % 146097).toNat + (n - 60) / 146097 * 400) mp =
        yearOfEra ((n - 60) % 146097).toNat + (n - 60) / 146097 * 400 := if_pos hmarch
    rw [hlate, hself]
    rfl
  · -- January and February belong to the next year
    have hearly : (BitVec.ofNat 64 (monthOf mp)).ule 2 = true := by
      interval_cases mp <;> rfl
    have hnext : yearOf (yearOfEra ((n - 60) % 146097).toNat + (n - 60) / 146097 * 400) mp =
        yearOfEra ((n - 60) % 146097).toNat + (n - 60) / 146097 * 400 + 1 := if_neg hmarch
    rw [hearly, hnext]
    exact (BitVec.ofInt_add _ 1).symm

/-- No unsigned operation of `fmt_date` wraps. -/
structure NoWrap (W : CivilWords) : Prop where
  quarter : W.doe.usubOverflow (W.doe.udiv 1460) = false
  century : (W.doe - W.doe.udiv 1460).uaddOverflow (W.doe.udiv 36524) = false
  era : (W.doe - W.doe.udiv 1460 + W.doe.udiv 36524).usubOverflow (W.doe.udiv 146096) = false
  days : (365 : I64).umulOverflow W.yoe = false
  leaps : (365 * W.yoe).uaddOverflow (W.yoe.udiv 4) = false
  centuries : (365 * W.yoe + W.yoe.udiv 4).usubOverflow (W.yoe.udiv 100) = false
  year : W.doe.usubOverflow (365 * W.yoe + W.yoe.udiv 4 - W.yoe.udiv 100) = false
  fifths : (5 : I64).umulOverflow W.doy = false ∧ (5 * W.doy).uaddOverflow 2 = false
  month : (153 : I64).umulOverflow W.mp = false ∧ (153 * W.mp).uaddOverflow 2 = false
  day : W.doy.usubOverflow ((153 * W.mp + 2).udiv 5) = false ∧
    (W.doy - (153 * W.mp + 2).udiv 5).uaddOverflow 1 = false
  /-- the month of the calendar -/
  early : W.mp.ult 10 = true → W.mp.uaddOverflow 3 = false
  late : W.mp.ult 10 = false → W.mp.usubOverflow 9 = false

theorem usubOverflow_ofNat {a b : Nat} (ha : a < 2 ^ 64) (h : b ≤ a) :
    (BitVec.ofNat 64 a).usubOverflow (BitVec.ofNat 64 b) = false := by
  unfold BitVec.usubOverflow
  rw [BitVec.toNat_ofNat, BitVec.toNat_ofNat, Nat.mod_eq_of_lt ha,
    Nat.mod_eq_of_lt (Nat.lt_of_le_of_lt h ha)]
  exact decide_eq_false (Nat.not_lt.mpr h)

theorem uaddOverflow_ofNat {a b : Nat} (h : a + b < 2 ^ 64) :
    (BitVec.ofNat 64 a).uaddOverflow (BitVec.ofNat 64 b) = false := by
  unfold BitVec.uaddOverflow
  rw [BitVec.toNat_ofNat, BitVec.toNat_ofNat, Nat.mod_eq_of_lt (by omega),
    Nat.mod_eq_of_lt (by omega)]
  exact decide_eq_false (Nat.not_le.mpr h)

theorem umulOverflow_ofNat {a b : Nat} (ha : a < 2 ^ 64) (hb : b < 2 ^ 64) (h : a * b < 2 ^ 64) :
    (BitVec.ofNat 64 a).umulOverflow (BitVec.ofNat 64 b) = false := by
  unfold BitVec.umulOverflow
  rw [BitVec.toNat_ofNat, BitVec.toNat_ofNat, Nat.mod_eq_of_lt ha, Nat.mod_eq_of_lt hb]
  exact decide_eq_false (Nat.not_le.mpr h)

theorem linear_noWrap {a b n : Nat} (ha : a < 2 ^ 64) (hn : n < 2 ^ 64) (h : a * n + b < 2 ^ 64) :
    (BitVec.ofNat 64 a).umulOverflow (BitVec.ofNat 64 n) = false ∧
    (BitVec.ofNat 64 a * BitVec.ofNat 64 n).uaddOverflow (BitVec.ofNat 64 b) = false := by
  rw [BitVec.ofNat_mul_ofNat]
  exact ⟨umulOverflow_ofNat ha hn (Nat.lt_of_le_of_lt (Nat.le_add_right _ b) h),
    uaddOverflow_ofNat h⟩

theorem noWrap {n : Int} (hn : -2 ^ 31 ≤ n ∧ n < 2 ^ 31) :
    NoWrap (civilWords (BitVec.ofInt 64 n)) := by
  have hdoe : ((n - 60) % 146097).toNat < 146097 := by omega
  rw [civilWords_eq hn]
  generalize ((n - 60) % 146097).toNat = doe at hdoe ⊢
  have hordered := ordered hdoe
  have hyear := eraYear hdoe
  have hday := hyear.day
  have hlt := hyear.year
  have hmonth := monthDays_le hday
  rcases doe_quotients hdoe with ⟨hquarter, hcentury, hera⟩
  rcases yoe_quotients hlt with ⟨hdays, hfourth, hhundredth⟩
  have hdifference := ofNat_sub (by omega) hordered.quarter
  have hyears := ofNat_sub (by omega) hordered.years
  constructor
  · rw [hquarter]
    exact usubOverflow_ofNat (by omega) hordered.quarter
  · rw [hquarter, hcentury, hdifference]
    exact uaddOverflow_ofNat (by omega)
  · rw [hquarter, hcentury, hera, hdifference, BitVec.ofNat_add_ofNat]
    exact usubOverflow_ofNat (by omega) hordered.century
  · exact umulOverflow_ofNat (a := 365) (by decide) (by omega) (by omega)
  · rw [hdays, hfourth]
    exact uaddOverflow_ofNat (by omega)
  · rw [hdays, hfourth, hhundredth, BitVec.ofNat_add_ofNat]
    exact usubOverflow_ofNat (by omega) hordered.years
  · rw [hdays, hfourth, hhundredth, BitVec.ofNat_add_ofNat, hyears]
    exact usubOverflow_ofNat (by omega) hordered.year
  · exact linear_noWrap (a := 5) (b := 2) (by decide) (by omega) (by omega)
  · exact linear_noWrap (a := 153) (b := 2) (by decide) (by omega) (by omega)
  · rw [monthDays_eq hmonth.1, ofNat_sub (by omega) hmonth.2.1]
    exact ⟨usubOverflow_ofNat (by omega) hmonth.2.1, uaddOverflow_ofNat (b := 1) (by omega)⟩
  · intro _
    exact uaddOverflow_ofNat (b := 3) (by omega)
  · intro hlate
    have hle : 9 ≤ monthOfYear (dayOfYear doe) := by
      have hle := of_decide_eq_false hlate
      rw [BitVec.toNat_ofNat, Nat.mod_eq_of_lt (by omega)] at hle
      exact Nat.le_of_succ_le (Nat.not_lt.mp hle)
    exact usubOverflow_ofNat (by omega) hle

/-! ## The texts of `%D` and `%T` -/

/-- The day number of a `CDate`. -/
def dayOf (cdate : I64) : Int := (cdate.sshiftRight 32).toInt

/-- The fraction of the day of a `CDate`, in units of `2 ^ -32`. -/
def dayFraction (cdate : I64) : Nat := (cdate &&& 0xFFFFFFFF).toNat

/-- A date as month, day and year. -/
def dateText (D : Date) : List Byte :=
  padDec 2 D.month ++ [ch '/'] ++ padDec 2 D.day ++ [ch '/'] ++ padDecInt 4 D.year

/-- A time of day as hours, minutes and seconds. -/
def clockText (h m s : Nat) : List Byte :=
  padDec 2 h ++ [ch ':'] ++ padDec 2 m ++ [ch ':'] ++ padDec 2 s

theorem dayOf_bounds (cdate : I64) : -2 ^ 31 ≤ dayOf cdate ∧ dayOf cdate < 2 ^ 31 := by
  have hlt := BitVec.toInt_lt (x := cdate)
  have hle := BitVec.le_toInt (x := cdate)
  unfold dayOf
  rw [BitVec.toInt_sshiftRight, Int.shiftRight_eq_div_pow]
  omega

theorem dayFraction_lt (cdate : I64) : dayFraction cdate < 2 ^ 32 := by
  unfold dayFraction
  rw [BitVec.toNat_and]
  exact Nat.lt_of_le_of_lt Nat.and_le_right (by decide)

/-- The year of a day number of 32 bits fits in 64. -/
theorem civilDate_bounds {n : Int} (hn : -2 ^ 31 ≤ n ∧ n < 2 ^ 31) :
    -2 ^ 31 ≤ (civilDate n).year ∧ (civilDate n).year < 2 ^ 31 ∧
      (civilDate n).month ≤ 12 ∧ (civilDate n).day ≤ 31 := by
  have hnumber := dayNumber_civilDate n
  have hbefore := (civilDate n).dayNumber_lt
  have hstart := (civilDate n).yearStart_le
  have hlength : monthLength (civilDate n).year (civilDate n).month ≤ 31 := by
    have hfebruary := february_bounds (civilDate n).year
    unfold monthLength
    split_ifs <;> omega
  have hday := Nat.le_trans (civilDate n).day_le hlength
  unfold yearStart at hbefore hstart
  exact ⟨by omega, by omega, (civilDate n).month_le, hday⟩

theorem fmtDate_day (cdate : I64) :
    fmtDate cdate false = dateText (civilDate (dayOf cdate)) := by
  have hbounds := civilDate_bounds (dayOf_bounds cdate)
  have hcivil := civil_eq (dayOf_bounds cdate)
  have hday : BitVec.ofInt 64 (dayOf cdate) = cdate.sshiftRight 32 := BitVec.ofInt_toInt
  rw [hday] at hcivil
  unfold fmtDate dateText
  simp only [hcivil, Bool.false_eq_true, if_false]
  have hyear : (BitVec.ofInt 64 (civilDate (dayOf cdate)).year).toInt =
      (civilDate (dayOf cdate)).year :=
    BitVec.toInt_ofInt_eq_self (by decide) (by omega) (by omega)
  rw [hyear, BitVec.toNat_ofNat, BitVec.toNat_ofNat, Nat.mod_eq_of_lt (by omega),
    Nat.mod_eq_of_lt (by omega)]

theorem fmtDate_time (cdate : I64) :
    let secs := dayFraction cdate * 86400 / 2 ^ 32
    fmtDate cdate true = clockText (secs / 3600) (secs / 60 % 60) (secs % 60) := rfl

/-- For every `CDate`, `%D` prints the date of its day number, by a computation that does not
wrap, and `%T` the seconds of its fraction of the day as a time of day; the dates correspond to
the day numbers, in their order. -/
theorem civil_dates :
    (∀ (H : Host) (V : ArgVec) (f : Flags) (width prec : I32) (A : Args),
      let cdate := (nextArg V A).1
      convert H V f width prec (ch 'D') A =
          (dateText (civilDate (dayOf cdate)), (nextArg V A).2) ∧
        (civilDate (dayOf cdate)).dayNumber = dayOf cdate ∧
        NoWrap (civilWords (cdate.sshiftRight 32)) ∧
        dayFraction cdate * 86400 < 2 ^ 49 ∧
        ∃ h m s, h < 24 ∧ m < 60 ∧ s < 60 ∧
          h * 3600 + m * 60 + s = dayFraction cdate * 86400 / 2 ^ 32 ∧
          convert H V f width prec (ch 'T') A = (clockText h m s, (nextArg V A).2)) ∧
    Function.Bijective civilDate ∧ ∀ n, civilDate (n + 1) = (civilDate n).next := by
  refine ⟨?_, civilDate_bijective, civilDate_succ⟩
  intro H V f width prec A cdate
  have hfraction := dayFraction_lt cdate
  have hwrap := noWrap (dayOf_bounds cdate)
  have hday : BitVec.ofInt 64 (dayOf cdate) = cdate.sshiftRight 32 := BitVec.ofInt_toInt
  rw [hday] at hwrap
  refine ⟨?_, dayNumber_civilDate _, hwrap, by omega, ?_⟩
  · have hD : convert H V f width prec (ch 'D') A = (fmtDate cdate false, (nextArg V A).2) := rfl
    rw [hD, fmtDate_day]
  · refine ⟨_, _, _, ?_, ?_, ?_, ?_, congrArg (fun t => (t, (nextArg V A).2)) (fmtDate_time cdate)⟩
    · omega
    · omega
    · omega
    · omega

end Hlang.Runtime
