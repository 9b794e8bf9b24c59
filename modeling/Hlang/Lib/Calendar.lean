import Mathlib.Data.Int.Order.Basic
import Mathlib.Tactic.IntervalCases
import Mathlib.Tactic.Linarith

/-!
# Calendar — the proleptic Gregorian calendar

Dates with the rule of leap years for all integers as years, the date of the
next day, and the number of days since 1 January of year 0. A date is determined
by its number (`Date.dayNumber_injective`), and consecutive dates have
consecutive numbers (`Date.dayNumber_next`).
-/

namespace Calendar

/-- A leap year: each fourth, of the centuries each fourth. -/
def IsLeap (y : Int) : Prop := y % 4 = 0 ∧ (y % 100 ≠ 0 ∨ y % 400 = 0)

instance (y : Int) : Decidable (IsLeap y) := inferInstanceAs (Decidable (_ ∧ _))

/-- The days of February. -/
def february (y : Int) : Nat := if IsLeap y then 29 else 28

def monthLength (y : Int) (m : Nat) : Nat :=
  if m = 2 then february y else if m = 4 ∨ m = 6 ∨ m = 9 ∨ m = 11 then 30 else 31

/-- A day of the calendar. -/
@[ext] structure Date where
  year : Int
  month : Nat
  day : Nat
  month_pos : 1 ≤ month
  month_le : month ≤ 12
  day_pos : 1 ≤ day
  day_le : day ≤ monthLength year month

/-! ## The number of a day -/

/-- The days of a year before the month `m`. -/
def daysBefore (y : Int) : Nat → Nat
  | 0 => 0
  | 1 => 0
  | m + 2 => daysBefore y (m + 1) + monthLength y (m + 1)

/-- The days from 1 January of year 0 to 1 January of year `y`. -/
def yearStart (y : Int) : Int := 365 * y + (y + 3) / 4 - (y + 99) / 100 + (y + 399) / 400

theorem yearStart_zero : yearStart 0 = 0 := rfl

/-- A year has 365 days, and one more if it is a leap year. -/
theorem yearStart_succ (y : Int) : yearStart (y + 1) = yearStart y + 337 + february y := by
  unfold yearStart
  by_cases h : IsLeap y
  · have hfebruary : february y = 29 := if_pos h
    unfold IsLeap at h
    omega
  · have hfebruary : february y = 28 := if_neg h
    unfold IsLeap at h
    omega

theorem daysBefore_succ (y : Int) {m : Nat} (hm : 1 ≤ m) :
    daysBefore y (m + 1) = daysBefore y m + monthLength y m := by
  rcases Nat.exists_eq_add_of_le' hm with ⟨k, rfl⟩
  rfl

theorem daysBefore_mono (y : Int) {m n : Nat} (hm : 1 ≤ m) (hmn : m ≤ n) :
    daysBefore y m ≤ daysBefore y n := by
  induction n, hmn using Nat.le_induction with
  | base => exact Nat.le_refl _
  | succ n hmn ih =>
      rw [daysBefore_succ y (Nat.le_trans hm hmn)]
      exact Nat.le_trans ih (Nat.le_add_right _ _)

/-- The twelve months fill the year. -/
theorem daysBefore_end (y : Int) : daysBefore y 13 = 337 + february y := by
  have hall : daysBefore y 13 = 0 + monthLength y 1 + monthLength y 2 + monthLength y 3 +
      monthLength y 4 + monthLength y 5 + monthLength y 6 + monthLength y 7 + monthLength y 8 +
      monthLength y 9 + monthLength y 10 + monthLength y 11 + monthLength y 12 := rfl
  have hfebruary : monthLength y 2 = february y := rfl
  have hothers : monthLength y 1 = 31 ∧ monthLength y 3 = 31 ∧ monthLength y 4 = 30 ∧
      monthLength y 5 = 31 ∧ monthLength y 6 = 30 ∧ monthLength y 7 = 31 ∧ monthLength y 8 = 31 ∧
      monthLength y 9 = 30 ∧ monthLength y 10 = 31 ∧ monthLength y 11 = 30 ∧
      monthLength y 12 = 31 := ⟨rfl, rfl, rfl, rfl, rfl, rfl, rfl, rfl, rfl, rfl, rfl⟩
  omega

theorem february_bounds (y : Int) : 28 ≤ february y ∧ february y ≤ 29 := by
  unfold february
  split_ifs
  · omega
  · omega

theorem yearStart_lt {y z : Int} (h : y < z) : yearStart (y + 1) ≤ yearStart z := by
  induction z, h using Int.leInduction with
  | base => exact le_refl _
  | succ z _ ih =>
      rw [yearStart_succ z]
      have hbounds := february_bounds z
      omega

namespace Date

/-- The number of days since 1 January of year 0. -/
def dayNumber (D : Date) : Int := yearStart D.year + daysBefore D.year D.month + D.day - 1

theorem daysBefore_add_day (D : Date) :
    daysBefore D.year D.month + D.day ≤ daysBefore D.year (D.month + 1) := by
  rw [daysBefore_succ D.year D.month_pos]
  exact Nat.add_le_add_left D.day_le _

/-- A day lies in its year. -/
theorem dayNumber_lt (D : Date) : D.dayNumber < yearStart (D.year + 1) := by
  have hmonth : daysBefore D.year (D.month + 1) ≤ daysBefore D.year 13 :=
    daysBefore_mono D.year (Nat.le_add_left 1 D.month) (Nat.succ_le_succ D.month_le)
  have hday := D.daysBefore_add_day
  have hend := daysBefore_end D.year
  unfold dayNumber
  rw [yearStart_succ]
  omega

theorem yearStart_le (D : Date) : yearStart D.year ≤ D.dayNumber := by
  have hday := D.day_pos
  unfold dayNumber
  omega

/-- Two days with one number are one day. -/
theorem dayNumber_injective : Function.Injective dayNumber := by
  intro D D' h
  have hyear : D.year = D'.year := by
    have hD := D.dayNumber_lt
    have hD' := D'.dayNumber_lt
    have hle := D.yearStart_le
    have hle' := D'.yearStart_le
    by_contra hne
    rcases lt_or_gt_of_ne hne with hlt | hlt
    · have hstart := yearStart_lt hlt
      omega
    · have hstart := yearStart_lt hlt
      omega
  have hrest : daysBefore D.year D.month + D.day = daysBefore D.year D'.month + D'.day := by
    unfold dayNumber at h
    rw [← hyear] at h
    omega
  have hmonth : D.month = D'.month := by
    have hD := D.daysBefore_add_day
    have hD' := D'.daysBefore_add_day
    rw [← hyear] at hD'
    have hpos := D.day_pos
    have hpos' := D'.day_pos
    by_contra hne
    rcases Nat.lt_or_gt_of_ne hne with hlt | hlt
    · have hstart := daysBefore_mono D.year (Nat.le_add_left 1 D.month) hlt
      omega
    · have hstart := daysBefore_mono D.year (Nat.le_add_left 1 D'.month) hlt
      omega
  have hday : D.day = D'.day := by
    rw [hmonth] at hrest
    omega
  exact Date.ext hyear hmonth hday

theorem monthLength_pos (y : Int) (m : Nat) : 1 ≤ monthLength y m := by
  have hfebruary := february_bounds y
  unfold monthLength
  split_ifs <;> omega

/-- The date of the next day. -/
def next (D : Date) : Date :=
  if hday : D.day < monthLength D.year D.month then
    { D with day := D.day + 1, day_pos := Nat.le_add_left 1 D.day, day_le := hday }
  else if hmonth : D.month < 12 then
    { year := D.year, month := D.month + 1, day := 1, month_pos := Nat.le_add_left 1 D.month
      month_le := hmonth, day_pos := Nat.le_refl 1, day_le := monthLength_pos _ _ }
  else
    { year := D.year + 1, month := 1, day := 1, month_pos := Nat.le_refl 1
      month_le := by decide, day_pos := Nat.le_refl 1, day_le := monthLength_pos _ _ }

/-- Consecutive days have consecutive numbers. -/
theorem dayNumber_next (D : Date) : D.next.dayNumber = D.dayNumber + 1 := by
  have hlast := D.day_le
  unfold next dayNumber
  split_ifs with hday hmonth
  · push_cast
    omega
  · rw [daysBefore_succ D.year D.month_pos]
    push_cast
    omega
  · -- 31 December
    have hdecember : D.month = 12 := by
      have hle := D.month_le
      omega
    have hend := daysBefore_end D.year
    rw [daysBefore_succ D.year (by decide : 1 ≤ 12), ← hdecember] at hend
    have hstart : daysBefore (D.year + 1) 1 = 0 := rfl
    rw [yearStart_succ, hstart]
    push_cast
    omega

end Date

end Calendar
