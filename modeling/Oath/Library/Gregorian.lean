import Mathlib.Tactic.IntervalCases
import Mathlib.Tactic.SplitIfs

/-! Days in the Gregorian calendar, counted year by year and month by month from 1970. -/

namespace Gregorian

def IsLeap (year : ℕ) : Prop := year % 4 = 0 ∧ (year % 100 ≠ 0 ∨ year % 400 = 0)

instance (year : ℕ) : Decidable (IsLeap year) := inferInstanceAs (Decidable (_ ∧ _))

def leapDays (year : ℕ) : ℕ := if IsLeap year then 1 else 0

def daysInMonth (year month : ℕ) : ℕ :=
  if month = 2 then 28 + leapDays year
  else if month = 4 ∨ month = 6 ∨ month = 9 ∨ month = 11 then 30 else 31

/-- The days of the first years from 1970 on. -/
def daysOfYears : ℕ → ℕ
  | 0 => 0
  | years + 1 => daysOfYears years + 365 + leapDays (1970 + years)

/-- The days of the first months of a year. -/
def daysOfMonths (year : ℕ) : ℕ → ℕ
  | 0 => 0
  | months + 1 => daysOfMonths year months + daysInMonth year (months + 1)

/-- The days before a date. -/
def dayCount (year month day : ℕ) : ℕ :=
  daysOfYears (year - 1970) + daysOfMonths year (month - 1) + (day - 1)

/-- There is such a day. -/
structure IsDate (year month day : ℕ) : Prop where
  month_pos : 1 ≤ month
  month_le : month ≤ 12
  day_pos : 1 ≤ day
  day_le : day ≤ daysInMonth year month

variable {year month day : ℕ}

theorem leapDays_le (year : ℕ) : leapDays year ≤ 1 := by
  unfold leapDays
  split_ifs
  · exact le_refl 1
  · exact Nat.zero_le 1

theorem daysInMonth_le (year month : ℕ) : daysInMonth year month ≤ 31 := by
  have hleap := leapDays_le year
  unfold daysInMonth
  split_ifs <;> omega

/-- No century but 2000 is between 1970 and 2099, so every fourth year has a leap day. -/
theorem leapDays_eq (hfrom : 1970 ≤ year) (hto : year ≤ 2099) :
    leapDays year = if year % 4 = 0 then 1 else 0 := by
  have hfourth : IsLeap year ↔ year % 4 = 0 := by
    unfold IsLeap
    omega
  exact if_congr hfourth rfl rfl

theorem daysOfYears_eq {years : ℕ} (h : years ≤ 129) :
    daysOfYears years = years * 365 + (years + 1) / 4 := by
  induction years with
  | zero => rfl
  | succ years ih =>
    have hleap : leapDays (1970 + years) = if (1970 + years) % 4 = 0 then 1 else 0 :=
      leapDays_eq (by omega) (by omega)
    rw [daysOfYears, ih (by omega), hleap]
    split_ifs <;> omega

theorem daysOfMonths_eq (year : ℕ) (hpos : 1 ≤ month) (hle : month ≤ 12) :
    daysOfMonths year (month - 1) =
      [0, 31, 59, 90, 120, 151, 181, 212, 243, 273, 304, 334].getD (month - 1) 0 +
        if 2 < month then leapDays year else 0 := by
  interval_cases month <;> simp [daysOfMonths, daysInMonth] <;> omega

end Gregorian
