import SensorQuery.Number.Numeral
import SensorQuery.Scan

/-!
# Calendar dates

Dates of the Gregorian calendar, extended without end in both directions, and their numbering by
days since 1 January 1970. The numbering counts years from March, so that the leap day is the last
day of its year.
-/

namespace SensorQuery

namespace Date

/-- A year of 366 days. -/
def isLeap (year : Int) : Bool := year % 4 = 0 && (year % 100 ≠ 0 || year % 400 = 0)

/-- The number of days of a month. -/
def daysInMonth (year : Int) (month : Nat) : Nat :=
  if month = 2 then (if isLeap year then 29 else 28)
  else if month = 4 ∨ month = 6 ∨ month = 9 ∨ month = 11 then 30 else 31

/-- The calendar has this day. -/
def OnCalendar (year : Int) (month day : Nat) : Prop :=
  1 ≤ month ∧ month ≤ 12 ∧ 1 ≤ day ∧ day ≤ daysInMonth year month

instance (year : Int) (month day : Nat) : Decidable (OnCalendar year month day) :=
  inferInstanceAs (Decidable (_ ∧ _ ∧ _ ∧ _))

end Date

/-- A day of the calendar. -/
structure Date where
  year : Int
  month : Nat
  day : Nat
  onCalendar : Date.OnCalendar year month day
deriving DecidableEq

namespace Date

/-- The day, if the calendar has it. -/
def ofYearMonthDay? (year : Int) (month day : Nat) : Option Date :=
  if h : OnCalendar year month day then some ⟨year, month, day, h⟩ else none

/-- The days before 1 March of the year, counted from 1 March of the year 0. -/
def daysBefore (year : Int) : Int := 365 * year + year / 4 - year / 100 + year / 400

/-- The days before the month with this number in a year from March. -/
def daysBeforeMonth (k : Nat) : Nat := (153 * k + 2) / 5

/-- The day's number; 1 January 1970 has the number 0. -/
def dayNumber (d : Date) : Int :=
  let start := if d.month ≤ 2 then daysBefore (d.year - 1) + daysBeforeMonth (d.month + 9)
    else daysBefore d.year + daysBeforeMonth (d.month - 3)
  start + d.day - 719469

/-- The year from March that holds the day with this number, counted from 1 March of the year 0. -/
def marchYear (n : Int) : Int :=
  let year := 400 * n / 146097
  if daysBefore (year + 1) ≤ n then year + 1 else if n < daysBefore year then year - 1 else year

/-- The day lies in its year from March. -/
theorem daysBefore_marchYear (n : Int) :
    daysBefore (marchYear n) ≤ n ∧ n < daysBefore (marchYear n + 1) := by
  unfold marchYear daysBefore
  simp only
  split
  · omega
  · split <;> omega

/-- A year from March has 366 days if its February is in a leap year. -/
theorem daysBefore_succ (year : Int) :
    daysBefore (year + 1) - daysBefore year = if isLeap (year + 1) then 366 else 365 := by
  unfold daysBefore isLeap
  split <;> next h => simp at h; omega

/-- A day's place in its year from March lies within the year. -/
theorem dayOfYear_lt (n : Int) :
    (n - daysBefore (marchYear n)).toNat < if isLeap (marchYear n + 1) then 366 else 365 := by
  have h := daysBefore_marchYear n
  have hs := daysBefore_succ (marchYear n)
  split at hs <;> next hl => simp only [hl]; simp; omega

/-- The month and day of a place in a year from March are on the calendar. -/
theorem onCalendar_of_lt (year : Int) (r : Nat)
    (h : r < if isLeap (year + 1) then 366 else 365) :
    let k := (5 * r + 2) / 153
    OnCalendar (if k < 10 then year else year + 1) (if k < 10 then k + 3 else k - 9)
      (r - daysBeforeMonth k + 1) := by
  intro k
  have hr : r < 366 := by split at h <;> omega
  have hk : k ≤ 11 := by simp only [k]; omega
  have hk1 : daysBeforeMonth k ≤ r ∧ r < daysBeforeMonth (k + 1) := by
    simp only [k, daysBeforeMonth]; omega
  clear_value k
  have cases : k = 0 ∨ k = 1 ∨ k = 2 ∨ k = 3 ∨ k = 4 ∨ k = 5 ∨ k = 6 ∨ k = 7 ∨ k = 8 ∨ k = 9 ∨
      k = 10 ∨ k = 11 := by omega
  rcases cases with rfl | rfl | rfl | rfl | rfl | rfl | rfl | rfl | rfl | rfl | rfl | rfl <;>
    simp [OnCalendar, daysInMonth, daysBeforeMonth] at * <;> (try omega)
  split at h <;> simp_all <;> omega

/-- The day with this number. -/
def ofDayNumber (n : Int) : Date :=
  let shifted := n + 719468
  let year := marchYear shifted
  let r := (shifted - daysBefore year).toNat
  let k := (5 * r + 2) / 153
  { year := if k < 10 then year else year + 1
    month := if k < 10 then k + 3 else k - 9
    day := r - daysBeforeMonth k + 1
    onCalendar := onCalendar_of_lt year r (dayOfYear_lt shifted) }

/-- The year with at least four digits, signed where four digits do not hold it. -/
def yearText (year : Int) : List Char :=
  if 0 ≤ year ∧ year ≤ 9999 then Numeral.padded 4 year.natAbs
  else (if year < 0 then '-' else '+') :: Numeral.padded 4 year.natAbs

/-- The date as `2012-12-03`. -/
def text (d : Date) : List Char :=
  yearText d.year ++ '-' :: Numeral.padded 2 d.month ++ '-' :: Numeral.padded 2 d.day

/-- Reads a date with a year of four digits. -/
def scan {ε : Type} : Scanner ε Date := do
  let year ← Scanner.exactlyOf Char.isDigit 4
  Scanner.char '-'
  let month ← Scanner.exactlyOf Char.isDigit 2
  Scanner.char '-'
  let day ← Scanner.exactlyOf Char.isDigit 2
  Scanner.ofOption (ofYearMonthDay? (Numeral.value year) (Numeral.value month) (Numeral.value day))

end Date

end SensorQuery
