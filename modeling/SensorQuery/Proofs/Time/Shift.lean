import SensorQuery.Proofs.Time.Calendar
import SensorQuery.Proofs.Time.Instant
import SensorQuery.Time.Interval

/-!
# Instants that are shifted

An instant is made of its second, the fraction of the second and its offset, and these are read off
it again. Outside leap seconds a shift by nanoseconds adds to one count of nanoseconds, so it is
undone by the opposite shift, as long as both ends lie on the calendar. Durations without years and
months are such shifts.
-/

namespace SensorQuery

namespace Clock

private theorem secondOfDay_lt (c : Clock) : c.secondOfDay < 86400 := by
  unfold secondOfDay
  omega

/-- The fraction runs on up to two seconds. -/
theorem fraction_lt (c : Clock) : c.fraction < 2 * nanosPerSecond := by
  unfold fraction nanosPerSecond
  omega

/-- The fraction may stand at the second: it is less than one, or the second ends a minute and the
fraction runs on into a leap second. -/
def Fits (second : Int) (fraction : Nat) : Prop :=
  fraction < nanosPerSecond ∨ second % 60 = 59 ∧ fraction < 2 * nanosPerSecond

private theorem fits (c : Clock) : Fits c.secondOfDay c.fraction := by
  unfold Fits secondOfDay fraction nanosPerSecond
  omega

/-- A time of day is made of its second and its fraction. -/
theorem ofSecond_secondOfDay (c : Clock) : ofSecond c.secondOfDay c.fraction = c := by
  obtain ⟨hour, minute, second, nano⟩ := c
  unfold ofSecond secondOfDay fraction nanosPerSecond
  simp only [Clock.mk.injEq, Fin.ext_iff]
  omega

private theorem secondOfDay_ofSecond {s f : Nat} (hs : s < 86400) (h : Fits s f) :
    (ofSecond s f).secondOfDay = s := by
  unfold Fits nanosPerSecond at h
  unfold ofSecond secondOfDay nanosPerSecond
  simp only
  omega

private theorem fraction_ofSecond {s f : Nat} (h : Fits s f) : (ofSecond s f).fraction = f := by
  unfold Fits nanosPerSecond at h
  unfold ofSecond fraction nanosPerSecond
  simp only
  omega

end Clock

namespace Timestamp

open Clock (Fits)

/-! ### Seconds and fractions -/

private theorem fits_local {s : Int} {f : Nat} {o : Offset} :
    Fits ((s + 60 * o.minutes) % 86400).toNat f ↔ Fits s f := by
  unfold Fits
  have hminute : (((s + 60 * o.minutes) % 86400).toNat : Int) % 60 = s % 60 := by omega
  rw [hminute]

/-- The fraction of a timestamp may stand at its second. -/
theorem fits (t : Timestamp) : Fits t.second t.clock.fraction := by
  have h := t.clock.fits
  unfold Fits at *
  unfold second
  omega

/-- A timestamp is made of its second, its fraction and its offset. -/
theorem ofSecond_second (t : Timestamp) : ofSecond t.second t.clock.fraction t.offset = t := by
  have hlt := t.clock.secondOfDay_lt
  have hlocal : t.second + 60 * t.offset.minutes
      = 86400 * t.date.dayNumber + t.clock.secondOfDay := by
    unfold second
    omega
  have hday : (86400 * t.date.dayNumber + t.clock.secondOfDay) / 86400 = t.date.dayNumber := by
    omega
  have hclock : ((86400 * t.date.dayNumber + t.clock.secondOfDay) % 86400).toNat
      = t.clock.secondOfDay := by
    omega
  unfold ofSecond
  simp only [hlocal, hday, hclock, Date.ofDayNumber_dayNumber, Clock.ofSecond_secondOfDay]

/-- A timestamp at a second is at that second. -/
theorem second_ofSecond {s : Int} {f : Nat} {o : Offset} (h : Fits s f) :
    (ofSecond s f o).second = s := by
  have hlt : ((s + 60 * o.minutes) % 86400).toNat < 86400 := by omega
  unfold second ofSecond
  simp only [Date.dayNumber_ofDayNumber, Clock.secondOfDay_ofSecond hlt (fits_local.mpr h)]
  omega

/-- A timestamp at a second and a fraction has that fraction. -/
theorem fraction_ofSecond {s : Int} {f : Nat} {o : Offset} (h : Fits s f) :
    (ofSecond s f o).clock.fraction = f :=
  Clock.fraction_ofSecond (fits_local.mpr h)

/-! ### The span of the calendar -/

/-- A timestamp with a year of four digits is in the span. -/
theorem spanned_of_isShort {t : Timestamp} (h : t.date.IsShort) : t.Spanned := by
  obtain ⟨hfirst, hlast⟩ := h
  have hbegun : Date.daysBefore (-1) ≤ t.date.dayNumber + 719468 := by
    have hyear : -1 ≤ t.date.yearFromMarch := by
      unfold Date.yearFromMarch
      split <;> omega
    rw [Date.dayNumber_eq]
    unfold Date.daysBefore
    omega
  have hended : t.date.dayNumber + 719468 < Date.daysBefore 10000 := by
    have hyear : t.date.yearFromMarch ≤ 9999 := by
      unfold Date.yearFromMarch
      split <;> omega
    have hplace := t.date.placeFromMarch_lt_year
    rw [Date.dayNumber_eq]
    unfold Date.daysBefore at *
    omega
  -- local and universal time are less than two days apart
  have hnear : t.date.dayNumber - 2 ≤ t.universalDay ∧ t.universalDay ≤ t.date.dayNumber + 2 := by
    have hclock := t.clock.secondOfDay_lt
    have hoffset := t.offset.within_day
    unfold universalDay second
    omega
  have hyear := Date.daysBefore_marchYear (t.universalDay + 719468)
  unfold Spanned InSpan Date.ofDayNumber
  simp only
  unfold Date.daysBefore at *
  split <;> omega

/-! ### Counts of nanoseconds -/

/-- The timestamp is in a leap second. -/
def IsLeap (t : Timestamp) : Prop := t.clock.second.val = 60

instance (t : Timestamp) : Decidable t.IsLeap := inferInstanceAs (Decidable (_ = _))

/-- In a leap second the fraction is one or more. -/
theorem isLeap_iff (t : Timestamp) : t.IsLeap ↔ Clock.nanosPerSecond ≤ t.clock.fraction := by
  unfold IsLeap Clock.fraction Clock.nanosPerSecond
  omega

/-- Nanoseconds since the start of 1970 in universal time, for timestamps outside leap seconds. -/
def nanos (t : Timestamp) : Int := Clock.nanosPerSecond * t.second + t.clock.fraction

/-- The timestamp outside leap seconds with this count of nanoseconds, written in an offset. -/
def ofNanos (n : Int) (o : Offset) : Timestamp :=
  ofSecond (n / Clock.nanosPerSecond) (n % Clock.nanosPerSecond).toNat o

/-- A count of nanoseconds leaves a fraction that may stand at any second. -/
theorem fits_nanos (n : Int) :
    Fits (n / Clock.nanosPerSecond) (n % Clock.nanosPerSecond).toNat := by
  unfold Fits Clock.nanosPerSecond
  omega

private theorem nanos_ofNanos (n : Int) (o : Offset) : (ofNanos n o).nanos = n := by
  unfold nanos ofNanos
  rw [second_ofSecond (fits_nanos n), fraction_ofSecond (fits_nanos n)]
  unfold Clock.nanosPerSecond
  omega

private theorem not_isLeap_ofNanos (n : Int) (o : Offset) : ¬ (ofNanos n o).IsLeap := by
  rw [isLeap_iff, ofNanos, fraction_ofSecond (fits_nanos n)]
  unfold Clock.nanosPerSecond
  omega

/-- Outside leap seconds a timestamp is made of its count of nanoseconds and its offset. -/
theorem ofNanos_nanos {t : Timestamp} (h : ¬ t.IsLeap) : ofNanos t.nanos t.offset = t := by
  rw [isLeap_iff] at h
  have hsecond : t.nanos / Clock.nanosPerSecond = t.second := by
    unfold nanos Clock.nanosPerSecond at *
    omega
  have hfraction : (t.nanos % Clock.nanosPerSecond).toNat = t.clock.fraction := by
    unfold nanos Clock.nanosPerSecond at *
    omega
  rw [ofNanos, hsecond, hfraction, ofSecond_second]

end Timestamp

namespace Instant

open Timestamp

/-! ### Shifts by nanoseconds -/

/-- Outside leap seconds a shift adds to the count of nanoseconds. -/
theorem addNanos?_of_not_isLeap {t : Instant} (h : ¬ t.IsLeap) (n : Int) :
    t.addNanos? n = ofTimestamp? (ofNanos (t.nanos + n) t.offset) := by
  rw [isLeap_iff] at h
  have hfraction : ¬ (Clock.nanosPerSecond : Int) ≤ t.clock.fraction := by omega
  unfold addNanos? ofNanos nanos
  simp only [hfraction, false_and, ite_false, Int.sub_zero]

-- A shift stays in the leap second while the fraction does, and is less than a second back.
private theorem stays_iff {n fraction : Int} (h : Clock.nanosPerSecond ≤ fraction)
    (hlt : fraction < 2 * Clock.nanosPerSecond) :
    (n.tdiv Clock.nanosPerSecond = 0 ∧ ¬ (0 < n.tmod Clock.nanosPerSecond ∧
      2 * Clock.nanosPerSecond ≤ fraction + n.tmod Clock.nanosPerSecond)) ↔
    -Clock.nanosPerSecond < n ∧ fraction + n < 2 * Clock.nanosPerSecond := by
  have hunit : (0 : Int) < Clock.nanosPerSecond := by decide
  generalize (Clock.nanosPerSecond : Int) = unit at *
  have hsum := Int.mul_tdiv_add_tmod n unit
  constructor
  · rintro ⟨hzero, hpart⟩
    have hlow := Int.lt_tmod_of_pos n hunit
    have hhigh := Int.tmod_lt_of_pos n hunit
    rw [hzero, Int.mul_zero, Int.zero_add] at hsum
    omega
  · rintro ⟨hlow, hhigh⟩
    have hzero : n.tdiv unit = 0 := by
      by_cases hn : 0 ≤ n
      · exact Int.tdiv_eq_zero_of_lt hn (by omega)
      · rw [← Int.neg_eq_zero, ← Int.neg_tdiv]
        exact Int.tdiv_eq_zero_of_lt (by omega) (by omega)
    rw [hzero, Int.mul_zero, Int.zero_add] at hsum
    omega

/-- In a leap second a shift adds to the fraction if it stays there. Else it adds to the count of
nanoseconds, on from the second after and back from the second before. -/
theorem addNanos?_of_isLeap {t : Instant} (h : t.IsLeap) (n : Int) :
    t.addNanos? n =
      if -Clock.nanosPerSecond < n ∧ t.clock.fraction + n < 2 * Clock.nanosPerSecond then
        ofTimestamp? (ofSecond t.second (t.clock.fraction + n).toNat t.offset)
      else
        let skipped : Int := if 0 ≤ n then Clock.nanosPerSecond else 0
        ofTimestamp? (ofNanos (t.nanos - skipped + n) t.offset) := by
  have hlt : (t.clock.fraction : Int) < 2 * Clock.nanosPerSecond := by
    exact_mod_cast t.clock.fraction_lt
  rw [isLeap_iff] at h
  have hfraction : (Clock.nanosPerSecond : Int) ≤ t.clock.fraction := by omega
  unfold addNanos? ofNanos nanos
  simp only [hfraction, true_and, stays_iff hfraction hlt]
  split
  · next hstays =>
    have hpart := (stays_iff hfraction hlt).mpr hstays
    have hsum := Int.mul_tdiv_add_tmod n Clock.nanosPerSecond
    rw [hpart.1, Int.mul_zero, Int.zero_add] at hsum
    rw [hsum]
  · rfl

/-- A shift outside leap seconds is undone by the opposite shift. -/
theorem addNanos?_neg {t u : Instant} {n : Int} (hleap : ¬ t.IsLeap) (h : t.addNanos? n = some u) :
    u.addNanos? (-n) = some t := by
  rw [addNanos?_of_not_isLeap hleap, ofTimestamp?_eq_some] at h
  have hstays : ¬ u.IsLeap := by
    rw [h]
    exact not_isLeap_ofNanos _ _
  rw [addNanos?_of_not_isLeap hstays, ofTimestamp?_eq_some, h, nanos_ofNanos,
    Int.add_neg_cancel_right]
  exact (ofNanos_nanos hleap).symm

end Instant

namespace Duration

/-! ### Shifts by durations -/

/-- The months by which the duration moves an instant, back if there are fewer than none. -/
def monthShift (d : Duration) : Int := if d.negative then -d.calendarMonths else d.calendarMonths

/-- The nanoseconds by which the duration moves an instant once the months are over. -/
def nanoShift? (d : Duration) : Option Int :=
  d.clockNanos?.map fun n ↦ if d.negative then -n else n

/-- A duration moves an instant on by its months, then by its nanoseconds. -/
theorem addTo?_eq_some {d : Duration} {t u : Instant} :
    d.addTo? t = some u ↔ ∃ moved n, t.addMonths? d.monthShift = some moved ∧
      d.nanoShift? = some n ∧ moved.addNanos? n = some u := by
  unfold addTo? backward? forward? monthShift nanoShift?
  cases d.negative with
  | true =>
    simp only [ite_true, Option.bind_eq_bind, Option.bind_eq_some_iff, Option.map_eq_some_iff]
    constructor
    · rintro ⟨moved, hmoved, n, hn, hu⟩
      exact ⟨moved, -n, hmoved, ⟨n, hn, rfl⟩, hu⟩
    · rintro ⟨moved, -, hmoved, ⟨n, hn, rfl⟩, hu⟩
      exact ⟨moved, hmoved, n, hn, hu⟩
  | false => simp [Option.bind_eq_some_iff]

/-- It moves an instant back by the same months, then by the same nanoseconds. -/
theorem subtractFrom?_eq_some {d : Duration} {t u : Instant} :
    d.subtractFrom? t = some u ↔ ∃ moved n, t.addMonths? (-d.monthShift) = some moved ∧
      d.nanoShift? = some n ∧ moved.addNanos? (-n) = some u := by
  unfold subtractFrom? backward? forward? monthShift nanoShift?
  cases d.negative with
  | true =>
    simp only [ite_true, Option.bind_eq_bind, Option.bind_eq_some_iff, Option.map_eq_some_iff]
    constructor
    · rintro ⟨moved, hmoved, n, hn, hu⟩
      refine ⟨moved, -n, ?_, ⟨n, hn, rfl⟩, ?_⟩
      · rwa [Int.neg_neg]
      · rwa [Int.neg_neg]
    · rintro ⟨moved, -, hmoved, ⟨n, hn, rfl⟩, hu⟩
      rw [Int.neg_neg] at hmoved hu
      exact ⟨moved, hmoved, n, hn, hu⟩
  | false => simp [Option.bind_eq_some_iff]

private theorem calendarMonths_eq_zero {d : Duration} :
    d.calendarMonths = 0 ↔ d.years = 0 ∧ d.months = 0 := by
  rw [← UInt32.toNat_inj, ← UInt32.toNat_inj]
  unfold calendarMonths
  simp only [UInt32.toNat_zero]
  omega

private theorem monthShift_eq_zero {d : Duration} : d.monthShift = 0 ↔ d.calendarMonths = 0 := by
  unfold monthShift
  split <;> omega

section Clock

variable {d : Duration} {t u : Instant} (hmonths : d.monthShift = 0)

include hmonths

/-- A duration without years and months moves an instant on by its nanoseconds alone. -/
theorem addTo?_eq_some_of_months :
    d.addTo? t = some u ↔ ∃ n, d.nanoShift? = some n ∧ t.addNanos? n = some u := by
  simp [addTo?_eq_some, hmonths, Instant.addMonths?]

/-- It moves an instant back by the same nanoseconds. -/
theorem subtractFrom?_eq_some_of_months :
    d.subtractFrom? t = some u ↔ ∃ n, d.nanoShift? = some n ∧ t.addNanos? (-n) = some u := by
  simp [subtractFrom?_eq_some, hmonths, Instant.addMonths?]

end Clock

end Duration

/-- A duration without years and months, taken off an instant that it has led to, leads back to
where it began, and so does one added to an instant that it was taken off. So the interval that
begins with it and the one that ends with it have the same bounds. The instant to begin with is in
no leap second. -/
theorem clock_shifts_are_undone {d : Duration} {t : Instant} (hyears : d.years = 0)
    (hmonths : d.months = 0) (hleap : ¬ t.IsLeap) :
    (∀ u, d.addTo? t = some u → d.subtractFrom? u = some t ∧
      (Interval.startingAt t d).bounds? = some (t, u) ∧
      (Interval.endingAt d u).bounds? = some (t, u)) ∧
    (∀ u, d.subtractFrom? t = some u → d.addTo? u = some t ∧
      (Interval.startingAt u d).bounds? = some (u, t) ∧
      (Interval.endingAt d t).bounds? = some (u, t)) := by
  have hshift : d.monthShift = 0 :=
    Duration.monthShift_eq_zero.mpr (Duration.calendarMonths_eq_zero.mpr ⟨hyears, hmonths⟩)
  constructor
  · intro u hu
    have hback : d.subtractFrom? u = some t := by
      obtain ⟨n, hn, hadd⟩ := (Duration.addTo?_eq_some_of_months hshift).mp hu
      have hundone := Instant.addNanos?_neg hleap hadd
      exact (Duration.subtractFrom?_eq_some_of_months hshift).mpr ⟨n, hn, hundone⟩
    exact ⟨hback, by simp [Interval.bounds?, hu], by simp [Interval.bounds?, hback]⟩
  · intro u hu
    have hon : d.addTo? u = some t := by
      obtain ⟨n, hn, hadd⟩ := (Duration.subtractFrom?_eq_some_of_months hshift).mp hu
      have hundone := Instant.addNanos?_neg hleap hadd
      rw [Int.neg_neg] at hundone
      exact (Duration.addTo?_eq_some_of_months hshift).mpr ⟨n, hn, hundone⟩
    exact ⟨hon, by simp [Interval.bounds?, hon], by simp [Interval.bounds?, hu]⟩

/-- The last half second of a leap day, half an hour ahead of universal time. -/
def leapDayEnd : Instant :=
  ⟨⟨⟨2020, 2, 29, by decide⟩, ⟨23, 59, 59, 500000000⟩, ⟨30, by decide⟩⟩, by decide⟩

/-- Minus a week, two days, three hours, four minutes and a quarter of a second. -/
def negativeClock : Duration := ⟨true, 0, 0, 1, 2, 3, 4, .ofDecimal false 25 (-2)⟩

/-- The theorem at that instant and that duration. -/
theorem leap_day_shifts_are_undone :
    ∃ u, negativeClock.addTo? leapDayEnd = some u ∧
      negativeClock.subtractFrom? u = some leapDayEnd ∧
      (Interval.startingAt leapDayEnd negativeClock).bounds? =
        (Interval.endingAt negativeClock u).bounds? := by
  have hu : negativeClock.addTo? leapDayEnd = some
      ⟨⟨⟨2020, 2, 20, by decide⟩, ⟨20, 55, 59, 250000000⟩, ⟨30, by decide⟩⟩, by decide⟩ := by
    decide +kernel
  obtain ⟨hback, hstart, hend⟩ := (clock_shifts_are_undone (d := negativeClock) (t := leapDayEnd)
    rfl rfl (by decide)).1 _ hu
  exact ⟨_, hu, hback, hstart.trans hend.symm⟩

/-- A second added in a leap second and taken off again leads to the second before it. -/
example :
    let t : Instant :=
      ⟨⟨⟨2016, 12, 31, by decide⟩, ⟨23, 59, 60, 500000000⟩, ⟨0, by decide⟩⟩, by decide⟩
    let d : Duration := ⟨false, 0, 0, 0, 0, 0, 0, .ofDecimal false 1 0⟩
    ((d.addTo? t).bind d.subtractFrom?).map Instant.toTimestamp =
      some ⟨t.date, ⟨23, 59, 59, 500000000⟩, t.offset⟩ := by
  decide +kernel

end SensorQuery
