import Mathlib

/-!
# Days and calendar dates

A day is counted from the first of January 1970 in the Gregorian calendar, which is extended to
all years.  Years begin in March here, so that a leap day is the last day of its year: an era of
400 years then has three centuries of 36524 days and one of 36525.
-/

namespace CivilDates

/-- A calendar date. -/
structure Civil where
  year : Int
  month : Nat
  day : Nat
  deriving DecidableEq, Repr

/-- A leap year has a 29th of February. -/
def isLeap (year : Int) : Bool :=
  decide (year % 4 = 0) && (decide (year % 100 ≠ 0) || decide (year % 400 = 0))

/-- The number of days of a month. -/
def daysIn (month : Nat) (year : Int) : Nat :=
  if month = 2 then if isLeap year then 29 else 28
  else if month = 4 ∨ month = 6 ∨ month = 9 ∨ month = 11 then 30
  else 31

/-- The days from the epoch to the first of March of the year 0. -/
def epochShift : Int := 719468

/-- The day of a date. -/
def Civil.days (c : Civil) : Int :=
  let year := if c.month ≤ 2 then c.year - 1 else c.year
  let month := if c.month ≤ 2 then c.month + 9 else c.month - 3
  365 * year + year / 4 - year / 100 + year / 400 + ((153 * month + 2) / 5 : Nat) + c.day - 1
    - epochShift

/-- The year, from March on, of a day counted from the year 0, and the day in it. -/
def yearOf (n : Int) : Int × Int :=
  let inEra := n % 146097
  let century := min (inEra / 36524) 3
  let inCentury := inEra - 36524 * century
  let cycle := inCentury / 1461
  let inCycle := inCentury - 1461 * cycle
  let single := min (inCycle / 365) 3
  (400 * (n / 146097) + 100 * century + 4 * cycle + single, inCycle - 365 * single)

/-- The date of a day. -/
def civil (n : Int) : Civil :=
  let (year, inYear) := yearOf (n + epochShift)
  let month := (5 * inYear.toNat + 2) / 153
  let day := inYear.toNat - (153 * month + 2) / 5 + 1
  if month < 10 then ⟨year, month + 3, day⟩ else ⟨year + 1, month - 9, day⟩

/-- The day lies in the year. -/
theorem yearOf_bounds (n : Int) : 0 ≤ (yearOf n).2 ∧ (yearOf n).2 ≤ 365 := by
  simp only [yearOf]
  omega

/-- The days before the year and those in it are all the days. -/
theorem yearOf_days (n : Int) :
    365 * (yearOf n).1 + (yearOf n).1 / 4 - (yearOf n).1 / 100 + (yearOf n).1 / 400 +
      (yearOf n).2 = n := by
  simp only [yearOf]
  generalize hcentury : min (n % 146097 / 36524) 3 = century
  generalize hcycle : (n % 146097 - 36524 * century) / 1461 = cycle
  generalize hsingle : min ((n % 146097 - 36524 * century - 1461 * cycle) / 365) 3 = single
  have hbounds : 0 ≤ century ∧ century ≤ 3 ∧ 0 ≤ cycle ∧ cycle ≤ 24 ∧ 0 ≤ single ∧ single ≤ 3 := by
    omega
  clear hcentury hcycle hsingle
  omega

/-- **A day is the day of its date.** -/
theorem days_civil (n : Int) : (civil n).days = n := by
  obtain ⟨hlow, hhigh⟩ := yearOf_bounds (n + epochShift)
  have hdays := yearOf_days (n + epochShift)
  simp only [civil]
  generalize (yearOf (n + epochShift)).1 = year at hdays ⊢
  generalize (yearOf (n + epochShift)).2 = inYear at hlow hhigh hdays ⊢
  split
  · simp only [Civil.days]
    split <;> omega
  · simp only [Civil.days]
    split <;> omega

theorem civil_day_le (n : Int) : (civil n).day ≤ 31 := by
  obtain ⟨hlow, hhigh⟩ := yearOf_bounds (n + epochShift)
  simp only [civil]
  split <;> simp only <;> omega

example : civil 0 = ⟨1970, 1, 1⟩ ∧ civil 19782 = ⟨2024, 2, 29⟩ ∧ civil (-1) = ⟨1969, 12, 31⟩ := by
  decide +kernel

end CivilDates
