import Mathlib.Logic.Basic

/-!
The proleptic Gregorian calendar: the rule of leap years carried to every year, and the days
counted one by one. Nothing here names a program.

* `daysBeforeYear_eq` — the days before a year in closed form.
* `Date.month_mem` — a date's month is one of twelve.
-/

namespace Softfig.Lib.Calendar

/-- The Gregorian rule: every fourth year, save the centuries that 400 does not divide. -/
def isLeap (year : Nat) : Bool :=
  (year % 4 == 0 && year % 100 != 0) || year % 400 == 0

/-- The days of a month, numbered from 1. A number that is no month has no day. -/
def monthLength (year : Nat) : Nat → Nat
  | 1 | 3 | 5 | 7 | 8 | 10 | 12 => 31
  | 4 | 6 | 9 | 11 => 30
  | 2 => if isLeap year then 29 else 28
  | _ => 0

def yearLength (year : Nat) : Nat := if isLeap year then 366 else 365

/-- The days of every year from year 0 up to this one. -/
def daysBeforeYear : Nat → Nat
  | 0 => 0
  | year + 1 => daysBeforeYear year + yearLength year

/-- The days of the year's months up to this one. -/
def daysBeforeMonth (year : Nat) : Nat → Nat
  | 0 => 0
  | month + 1 => daysBeforeMonth year month + monthLength year month

/-- A day the calendar has. -/
structure Date where
  year : Nat
  month : Nat
  day : Nat
  day_pos : 1 ≤ day
  day_le : day ≤ monthLength year month

/-- The days before the first of January of year 0 and this one. -/
def Date.dayNumber (date : Date) : Nat :=
  daysBeforeYear date.year + daysBeforeMonth date.year date.month + (date.day - 1)

/-! ### The length of a year -/

theorem isLeap_iff {year : Nat} :
    isLeap year = true ↔ (year % 4 = 0 ∧ year % 100 ≠ 0) ∨ year % 400 = 0 := by
  simp [isLeap]

/-- The days before a year in closed form. -/
theorem daysBeforeYear_eq (year : Nat) :
    daysBeforeYear year = 365 * year + (year + 3) / 4 + (year + 399) / 400 - (year + 99) / 100 := by
  induction year with
  | zero => rfl
  | succ year ih =>
    rw [daysBeforeYear, ih, yearLength]
    by_cases h : isLeap year = true
    · rw [if_pos h]
      rw [isLeap_iff] at h
      omega
    · rw [if_neg h]
      rw [isLeap_iff] at h
      omega

theorem Date.month_mem (date : Date) : 1 ≤ date.month ∧ date.month ≤ 12 := by
  refine Decidable.byContradiction fun h => ?_
  have hzero : monthLength date.year date.month = 0 := by
    unfold monthLength
    split <;> omega
  have hpos := date.day_pos
  have hle := date.day_le
  omega

theorem Date.day_le_31 (date : Date) : date.day ≤ 31 := by
  have hle := date.day_le
  unfold monthLength at hle
  split at hle <;> first | omega | (split at hle <;> omega)

end Softfig.Lib.Calendar
