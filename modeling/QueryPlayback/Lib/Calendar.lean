import Mathlib.Algebra.Order.Ring.Nat
import Mathlib.Order.Monotone.Basic

/-!
# The Gregorian calendar

Years consist of months, months of days, and both have different lengths. A day is
numbered by the lengths of the years and months before it. The numbers grow from
day to day, so that the seconds of an instant respect the order of the calendar.

## Implementation notes

The count starts with the year 1970. Months and days are counted from one.
-/

namespace QueryPlayback.Calendar

section Blocks

variable (len : ℕ → ℕ)

/-- The length of the first blocks together. -/
def before : ℕ → ℕ
  | 0 => 0
  | n + 1 => before n + len n

theorem before_mono : Monotone (before len) := by
  apply monotone_nat_of_le_succ
  intro n
  exact Nat.le_add_right (before len n) (len n)

/-- A place in one block comes before every place in a later block. -/
theorem before_add_lt {m n i : ℕ} (hmn : m < n) (hi : i < len m) (j : ℕ) :
    before len m + i < before len n + j := by
  calc before len m + i < before len m + len m := Nat.add_lt_add_left hi _
    _ = before len (m + 1) := rfl
    _ ≤ before len n := before_mono len hmn
    _ ≤ before len n + j := Nat.le_add_right _ j

end Blocks

/-- Every fourth year is a leap year, except three of four last years of a century. -/
def isLeap (year : ℕ) : Bool := year % 4 = 0 && (year % 100 ≠ 0 || year % 400 = 0)

def monthLength (year month : ℕ) : ℕ :=
  if month = 2 then if isLeap year then 29 else 28
  else if month ∈ [4, 6, 9, 11] then 30 else 31

def yearLength (year : ℕ) : ℕ := before (fun k => monthLength year (k + 1)) 12

/-- A second of the calendar from 1970 on. -/
structure Instant where
  year : ℕ
  month : ℕ
  day : ℕ
  hour : ℕ
  minute : ℕ
  second : ℕ
  year_valid : 1970 ≤ year
  month_valid : 1 ≤ month ∧ month ≤ 12
  day_valid : 1 ≤ day ∧ day ≤ monthLength year month
  time_valid : hour < 24 ∧ minute < 60 ∧ second < 60
  deriving DecidableEq, Repr

namespace Instant

/-- The components from the largest to the smallest, compared lexicographically. -/
def components (i : Instant) : List ℕ := [i.year, i.month, i.day, i.hour, i.minute, i.second]

/-- The days of the year in front of the day. -/
def dayOfYear (i : Instant) : ℕ :=
  before (fun k => monthLength i.year (k + 1)) (i.month - 1) + (i.day - 1)

/-- The days since the first of January 1970. -/
def dayNumber (i : Instant) : ℕ :=
  before (fun k => yearLength (1970 + k)) (i.year - 1970) + i.dayOfYear

/-- The seconds since the beginning of 1970. -/
def seconds (i : Instant) : ℕ := ((i.dayNumber * 24 + i.hour) * 60 + i.minute) * 60 + i.second

theorem day_lt (i : Instant) : i.day - 1 < monthLength i.year (i.month - 1 + 1) := by
  obtain ⟨hday, hle⟩ := i.day_valid
  rw [Nat.sub_add_cancel i.month_valid.1]
  omega

theorem dayOfYear_lt (i : Instant) : i.dayOfYear < yearLength i.year := by
  have hmonth : i.month - 1 < 12 := by
    have hvalid := i.month_valid
    omega
  exact before_add_lt _ hmonth i.day_lt 0

variable {i j : Instant}

theorem dayOfYear_lt_of_month (hyear : i.year = j.year) (hmonth : i.month < j.month) :
    i.dayOfYear < j.dayOfYear := by
  have hlt : i.month - 1 < j.month - 1 := by
    have hvalid := i.month_valid
    omega
  rw [dayOfYear, dayOfYear, ← hyear]
  exact before_add_lt _ hlt i.day_lt (j.day - 1)

theorem dayNumber_lt_of_year (hyear : i.year < j.year) : i.dayNumber < j.dayNumber := by
  have hlt : i.year - 1970 < j.year - 1970 := by
    have hvalid := i.year_valid
    omega
  have hyears : 1970 + (i.year - 1970) = i.year := Nat.add_sub_of_le i.year_valid
  have hlast : i.dayOfYear < yearLength (1970 + (i.year - 1970)) := by
    rw [hyears]
    exact i.dayOfYear_lt
  exact before_add_lt (fun k => yearLength (1970 + k)) hlt hlast j.dayOfYear

theorem dayNumber_lt_of_month (hyear : i.year = j.year) (hmonth : i.month < j.month) :
    i.dayNumber < j.dayNumber := by
  rw [dayNumber, dayNumber, hyear]
  exact Nat.add_lt_add_left (dayOfYear_lt_of_month hyear hmonth) _

theorem dayNumber_lt_of_day (hyear : i.year = j.year) (hmonth : i.month = j.month)
    (hday : i.day < j.day) : i.dayNumber < j.dayNumber := by
  have hvalid := i.day_valid
  rw [dayNumber, dayNumber, dayOfYear, dayOfYear, hyear, hmonth]
  omega

theorem dayNumber_eq (hyear : i.year = j.year) (hmonth : i.month = j.month)
    (hday : i.day = j.day) : i.dayNumber = j.dayNumber := by
  rw [dayNumber, dayNumber, dayOfYear, dayOfYear, hyear, hmonth, hday]

theorem seconds_lt_of_day (h : i.dayNumber < j.dayNumber) : i.seconds < j.seconds := by
  have hi := i.time_valid
  rw [seconds, seconds]
  omega

/-- The seconds grow along the calendar. -/
theorem seconds_lt (h : i.components < j.components) : i.seconds < j.seconds := by
  simp only [components, List.cons_lt_cons_iff, List.not_lt_nil, and_false, or_false] at h
  rcases h with hyear | ⟨hyear, hmonth | ⟨hmonth, hday | ⟨hday, htime⟩⟩⟩
  · exact seconds_lt_of_day (dayNumber_lt_of_year hyear)
  · exact seconds_lt_of_day (dayNumber_lt_of_month hyear hmonth)
  · exact seconds_lt_of_day (dayNumber_lt_of_day hyear hmonth hday)
  · have hi := i.time_valid
    have hj := j.time_valid
    rw [seconds, seconds, dayNumber_eq hyear hmonth hday]
    omega

theorem seconds_eq (h : i.components = j.components) : i.seconds = j.seconds := by
  simp only [components, List.cons.injEq, and_true] at h
  obtain ⟨hyear, hmonth, hday, hhour, hminute, hsecond⟩ := h
  rw [seconds, seconds, dayNumber_eq hyear hmonth hday, hhour, hminute, hsecond]

end Instant

end QueryPlayback.Calendar
