import SensorQuery.Time.Date

/-!
# Days and their numbers

Every day has a number and every number is that of a day, and a day in a later month has a greater
number. Both follow from where a day stands in the years from March: each of these years, and each
month in it, ends where the next begins.
-/

namespace SensorQuery.Date

/-! ### Years from March -/

/-- A year ends before a later one begins. -/
theorem daysBefore_le {a b : Int} (h : a < b) : daysBefore (a + 1) ≤ daysBefore b := by
  unfold daysBefore
  omega

/-- A day lies in one year only. -/
theorem marchYear_eq {n year : Int} (hbegun : daysBefore year ≤ n)
    (hended : n < daysBefore (year + 1)) : marchYear n = year := by
  have hn := daysBefore_marchYear n
  rcases Int.lt_trichotomy (marchYear n) year with h | h | h
  · have hle := daysBefore_le h
    omega
  · exact h
  · have hle := daysBefore_le h
    omega

/-- The year from March that the day lies in. -/
def yearFromMarch (d : Date) : Int := if d.month ≤ 2 then d.year - 1 else d.year

/-- The number of the month, counted from March. -/
def monthFromMarch (d : Date) : Nat := if d.month ≤ 2 then d.month + 9 else d.month - 3

/-- The place of the day in its year from March. -/
def placeFromMarch (d : Date) : Nat := daysBeforeMonth d.monthFromMarch + (d.day - 1)

private theorem monthFromMarch_lt (d : Date) : d.monthFromMarch < 12 := by
  have hmonth := d.onCalendar.2.1
  have hfirst := d.onCalendar.1
  unfold monthFromMarch
  split <;> omega

/-- The number of a day is that of its place in the years from March. -/
theorem dayNumber_eq (d : Date) :
    d.dayNumber = daysBefore d.yearFromMarch + d.placeFromMarch - 719468 := by
  have hday := d.onCalendar.2.2.1
  unfold dayNumber placeFromMarch yearFromMarch monthFromMarch
  simp only
  split <;> omega

private theorem daysBeforeMonth_succ (year : Int) {month : Nat} (hfirst : 1 ≤ month)
    (hlast : month ≤ 12) (h : month ≠ 2) :
    let k := if month ≤ 2 then month + 9 else month - 3
    daysBeforeMonth (k + 1) = daysBeforeMonth k + daysInMonth year month := by
  have cases : month = 1 ∨ month = 3 ∨ month = 4 ∨ month = 5 ∨ month = 6 ∨ month = 7 ∨ month = 8 ∨
      month = 9 ∨ month = 10 ∨ month = 11 ∨ month = 12 := by omega
  rcases cases with rfl | rfl | rfl | rfl | rfl | rfl | rfl | rfl | rfl | rfl | rfl <;> rfl

/-- A day comes before the next month of its year from March. -/
theorem placeFromMarch_lt_month (d : Date) (h : d.monthFromMarch < 11) :
    d.placeFromMarch < daysBeforeMonth (d.monthFromMarch + 1) := by
  obtain ⟨hfirst, hlast, hday, hlength⟩ := d.onCalendar
  have hmonth : d.month ≠ 2 := by
    intro hfebruary
    simp [monthFromMarch, hfebruary] at h
  have hsucc := daysBeforeMonth_succ d.year hfirst hlast hmonth
  unfold placeFromMarch monthFromMarch
  simp only at hsucc
  omega

/-- A day comes before the next year from March: the last day of February does in its year. -/
theorem placeFromMarch_lt_year (d : Date) :
    daysBefore d.yearFromMarch + d.placeFromMarch < daysBefore (d.yearFromMarch + 1) := by
  have hyear := daysBefore_succ d.yearFromMarch
  by_cases h : d.month = 2
  · obtain ⟨-, -, hday, hlength⟩ := d.onCalendar
    have hplace : d.placeFromMarch = 337 + (d.day - 1) := by
      simp [placeFromMarch, monthFromMarch, h, daysBeforeMonth]
    have hnext : d.yearFromMarch + 1 = d.year := by
      simp [yearFromMarch, h]
    rw [hnext] at hyear ⊢
    rw [daysInMonth, if_pos h] at hlength
    by_cases hleap : isLeap d.year = true
    · rw [if_pos hleap] at hyear hlength
      omega
    · rw [if_neg hleap] at hyear hlength
      omega
  · have hmonth : d.monthFromMarch < 11 := by
      obtain ⟨hfirst, hlast, -, -⟩ := d.onCalendar
      unfold monthFromMarch
      split <;> omega
    have hplace := d.placeFromMarch_lt_month hmonth
    have hlast : daysBeforeMonth (d.monthFromMarch + 1) ≤ 337 := by
      unfold daysBeforeMonth
      omega
    split at hyear <;> omega

/-! ### Numbers of days -/

/-- A day is told by its year, its month and its place in the month. -/
@[ext] theorem ext {d e : Date} (hyear : d.year = e.year) (hmonth : d.month = e.month)
    (hday : d.day = e.day) : d = e := by
  cases d
  cases e
  simp_all

/-- The day with the number of a day is that day. -/
theorem ofDayNumber_dayNumber (d : Date) : ofDayNumber d.dayNumber = d := by
  have hshifted : d.dayNumber + 719468 = daysBefore d.yearFromMarch + d.placeFromMarch := by
    rw [dayNumber_eq]
    omega
  have hyear : marchYear (d.dayNumber + 719468) = d.yearFromMarch := by
    have hnext := d.placeFromMarch_lt_year
    apply marchYear_eq
    · omega
    · omega
  have hplace : (d.dayNumber + 719468 - daysBefore d.yearFromMarch).toNat = d.placeFromMarch := by
    omega
  have hmonth : (5 * d.placeFromMarch + 2) / 153 = d.monthFromMarch := by
    have hlt := d.monthFromMarch_lt
    by_cases h : d.monthFromMarch < 11
    · have hnext := d.placeFromMarch_lt_month h
      unfold placeFromMarch daysBeforeMonth at *
      omega
    · have hnext := d.placeFromMarch_lt_year
      have hlength := daysBefore_succ d.yearFromMarch
      have hplace : d.placeFromMarch < 366 := by split at hlength <;> omega
      unfold placeFromMarch daysBeforeMonth at *
      omega
  obtain ⟨hfirst, hlast, hday, -⟩ := d.onCalendar
  apply Date.ext
  · simp only [ofDayNumber, hyear, hplace, hmonth]
    unfold monthFromMarch yearFromMarch
    split <;> split <;> omega
  · simp only [ofDayNumber, hyear, hplace, hmonth]
    unfold monthFromMarch
    split <;> split <;> omega
  · simp only [ofDayNumber, hyear, hplace, hmonth]
    unfold placeFromMarch
    omega

/-- The day with a number has that number. -/
theorem dayNumber_ofDayNumber (n : Int) : (ofDayNumber n).dayNumber = n := by
  have hyear := daysBefore_marchYear (n + 719468)
  have hlength := daysBefore_succ (marchYear (n + 719468))
  unfold dayNumber ofDayNumber
  simp only
  generalize marchYear (n + 719468) = year at *
  generalize hplace : (n + 719468 - daysBefore year).toNat = place
  generalize hmonth : (5 * place + 2) / 153 = k
  have hlt : place < 366 := by split at hlength <;> omega
  have hbegun : daysBeforeMonth k ≤ place := by
    unfold daysBeforeMonth
    omega
  by_cases h : k < 10
  · have hlate : ¬ k + 3 ≤ 2 := by omega
    simp only [h, ite_true, hlate, ite_false, Nat.add_sub_cancel]
    omega
  · have hearly : k - 9 ≤ 2 := by omega
    have hback : k - 9 + 9 = k := by omega
    simp only [h, ite_false, hearly, ite_true, hback, Int.add_sub_cancel]
    omega

/-- A day in a later month has a greater number. -/
theorem dayNumber_lt {d e : Date} (h : 12 * d.year + d.month < 12 * e.year + e.month) :
    d.dayNumber < e.dayNumber := by
  have hmonths (d : Date) :
      12 * d.yearFromMarch + d.monthFromMarch = 12 * d.year + d.month - 3 := by
    have hfirst := d.onCalendar.1
    unfold yearFromMarch monthFromMarch
    split <;> omega
  have hd := hmonths d
  have he := hmonths e
  have hdlast := d.monthFromMarch_lt
  have helast := e.monthFromMarch_lt
  rw [dayNumber_eq, dayNumber_eq]
  by_cases hyear : d.yearFromMarch = e.yearFromMarch
  · have hplace := d.placeFromMarch_lt_month (by omega)
    have hmonth : daysBeforeMonth (d.monthFromMarch + 1) ≤ daysBeforeMonth e.monthFromMarch := by
      unfold daysBeforeMonth
      omega
    have hbegun : daysBeforeMonth e.monthFromMarch ≤ e.placeFromMarch := Nat.le_add_right _ _
    rw [hyear]
    omega
  · have hplace := d.placeFromMarch_lt_year
    have hnext := daysBefore_le (show d.yearFromMarch < e.yearFromMarch by omega)
    omega

end SensorQuery.Date
