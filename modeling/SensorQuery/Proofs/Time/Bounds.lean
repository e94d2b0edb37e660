import SensorQuery.Literal
import SensorQuery.Proofs.Time.Interval
import SensorQuery.Proofs.Time.Shift

/-!
# The order of an interval's bounds

A shift by a positive number of months or nanoseconds leads to a later instant and a shift by a
negative number to an earlier one, also into leap seconds and out of them. So the bounds of an
interval are in order exactly if its length runs forward: a negative length puts the end before the
start.
-/

namespace SensorQuery

namespace Timestamp

/-! ### The line of universal time -/

/-- The place of the timestamp on a line that has room for two seconds at each second, since the
fraction goes up to two in a leap second. -/
def place (t : Timestamp) : Int := 2 * Clock.nanosPerSecond * t.second + t.clock.fraction

private theorem place_ofSecond {s : Int} {f : Nat} {o : Offset} (h : Clock.Fits s f) :
    (ofSecond s f o).place = 2 * Clock.nanosPerSecond * s + f := by
  rw [place, second_ofSecond h, fraction_ofSecond h]

private theorem place_ofNanos (n : Int) (o : Offset) :
    (ofNanos n o).place = n + Clock.nanosPerSecond * (n / Clock.nanosPerSecond) := by
  unfold ofNanos
  rw [place_ofSecond (fits_nanos n)]
  unfold Clock.nanosPerSecond
  omega

/-- The second timestamp lies on the side of the first that the sign of the amount tells. -/
structure Moves (amount : Int) (t u : Timestamp) : Prop where
  later : 0 < amount → t.place < u.place
  earlier : amount < 0 → u.place < t.place
  same : amount = 0 → u = t

/-! ### Shifts by nanoseconds -/

-- A shift that stays in a leap second moves the fraction alone.
private theorem moves_fraction {t : Timestamp} {n : Int} (hleap : t.IsLeap)
    (hlow : -Clock.nanosPerSecond < n) (hhigh : t.clock.fraction + n < 2 * Clock.nanosPerSecond) :
    Moves n t (ofSecond t.second (t.clock.fraction + n).toNat t.offset) := by
  have hfits : Clock.Fits t.second (t.clock.fraction + n).toNat := by
    have h := t.fits
    rw [isLeap_iff] at hleap
    unfold Clock.Fits at *
    omega
  have hmoved := place_ofSecond (o := t.offset) hfits
  rw [isLeap_iff] at hleap
  refine ⟨fun hpos ↦ ?_, fun hneg ↦ ?_, fun hzero ↦ ?_⟩
  · rw [hmoved, place]
    omega
  · rw [hmoved, place]
    omega
  · rw [hzero, Int.add_zero, Int.toNat_natCast, ofSecond_second]

-- A shift out of a leap second ends in a later second, or before the leap second.
private theorem moves_out {t : Timestamp} {n : Int} (hleap : t.IsLeap)
    (hleaves : ¬ (-Clock.nanosPerSecond < n ∧ t.clock.fraction + n < 2 * Clock.nanosPerSecond)) :
    let skipped : Int := if 0 ≤ n then Clock.nanosPerSecond else 0
    Moves n t (ofNanos (t.nanos - skipped + n) t.offset) := by
  intro skipped
  have hlt := t.clock.fraction_lt
  rw [isLeap_iff] at hleap
  refine ⟨fun hpos ↦ ?_, fun hneg ↦ ?_, fun hzero ↦ ?_⟩
  · have hskipped : skipped = Clock.nanosPerSecond := if_pos (Int.le_of_lt hpos)
    rw [place_ofNanos, hskipped, nanos, place]
    unfold Clock.nanosPerSecond at *
    omega
  · have hskipped : skipped = 0 := if_neg (Int.not_le.mpr hneg)
    rw [place_ofNanos, hskipped, nanos, place]
    unfold Clock.nanosPerSecond at *
    omega
  · unfold Clock.nanosPerSecond at *
    omega

private theorem moves_count {t : Timestamp} (hleap : ¬ t.IsLeap) (n : Int) :
    Moves n t (ofNanos (t.nanos + n) t.offset) := by
  have hback := ofNanos_nanos hleap
  rw [isLeap_iff] at hleap
  refine ⟨fun hpos ↦ ?_, fun hneg ↦ ?_, fun hzero ↦ ?_⟩
  · rw [place_ofNanos, nanos, place]
    unfold Clock.nanosPerSecond
    omega
  · rw [place_ofNanos, nanos, place]
    unfold Clock.nanosPerSecond at *
    omega
  · rw [hzero, Int.add_zero, hback]

end Timestamp

namespace Instant

open Timestamp

private theorem le_iff {t u : Instant} : t ≤ u ↔ t.place ≤ u.place := by
  have ht := t.clock.fraction_lt
  have hu := u.clock.fraction_lt
  show (_ ∨ _) ↔ _
  unfold place Clock.nanosPerSecond at *
  omega

/-! ### Shifts of instants -/

/-- A shift by months keeps the time of day and the offset, and counts on in months. -/
theorem exists_of_addMonths? {t u : Instant} {months : Int} (hne : months ≠ 0)
    (h : t.addMonths? months = some u) : ∃ date, u.toTimestamp = { t.toTimestamp with date } ∧
      12 * date.year + date.month = 12 * t.date.year + t.date.month + months := by
  simp only [addMonths?, hne, ite_false, Option.bind_eq_bind, Option.bind_eq_some_iff] at h
  obtain ⟨date, hdate, h⟩ := h
  split at h
  · refine ⟨date, ofTimestamp?_eq_some.mp h, ?_⟩
    unfold Date.ofYearMonthDay? at hdate
    split at hdate
    · cases hdate
      simp only
      omega
    · cases hdate
  · cases h

private theorem moves_addMonths? {t u : Instant} {months : Int} (h : t.addMonths? months = some u) :
    Moves months t.toTimestamp u.toTimestamp := by
  by_cases hne : months = 0
  · subst hne
    obtain rfl : t = u := by simpa [addMonths?] using h
    exact ⟨fun h ↦ absurd h (by decide), fun h ↦ absurd h (by decide), fun _ ↦ rfl⟩
  · obtain ⟨date, hmoved, hmonths⟩ := exists_of_addMonths? hne h
    rw [hmoved]
    refine ⟨fun hpos ↦ ?_, fun hneg ↦ ?_, fun hzero ↦ absurd hzero hne⟩
    · have hlater : t.date.dayNumber < date.dayNumber := Date.dayNumber_lt (by omega)
      unfold place second Clock.nanosPerSecond
      simp only
      omega
    · have hearlier : date.dayNumber < t.date.dayNumber := Date.dayNumber_lt (by omega)
      unfold place second Clock.nanosPerSecond
      simp only
      omega

private theorem moves_addNanos? {t u : Instant} {n : Int} (h : t.addNanos? n = some u) :
    Moves n t.toTimestamp u.toTimestamp := by
  by_cases hleap : t.IsLeap
  · rw [addNanos?_of_isLeap hleap] at h
    split at h
    · next hstays =>
      rw [ofTimestamp?_eq_some.mp h]
      exact moves_fraction hleap hstays.1 hstays.2
    · next hleaves =>
      rw [ofTimestamp?_eq_some.mp h]
      exact moves_out hleap hleaves
  · rw [addNanos?_of_not_isLeap hleap, ofTimestamp?_eq_some] at h
    rw [h]
    exact moves_count hleap n

/-- Two shifts that do not run against each other lead to a later instant or stay exactly if both
run forward or not at all. -/
theorem le_iff_of_moves {m n : Int} {t u : Instant} {moved : Timestamp}
    (hm : Moves m t.toTimestamp moved) (hn : Moves n moved u.toTimestamp)
    (hway : 0 ≤ m ∧ 0 ≤ n ∨ m ≤ 0 ∧ n ≤ 0) :
    (t ≤ u ↔ 0 ≤ m ∧ 0 ≤ n) ∧ (u ≤ t ↔ m ≤ 0 ∧ n ≤ 0) := by
  have hmsame : m = 0 → moved.place = t.place := fun h ↦ congrArg place (hm.same h)
  have hnsame : n = 0 → u.place = moved.place := fun h ↦ congrArg place (hn.same h)
  have hmlater := hm.later
  have hmearlier := hm.earlier
  have hnlater := hn.later
  have hnearlier := hn.earlier
  rw [Instant.le_iff, Instant.le_iff]
  omega

end Instant

namespace Duration

/-! ### The direction of a duration -/

/-- The duration does not move an instant back: neither its months nor its nanoseconds do. -/
def RunsForward (d : Duration) : Prop := ∀ n ∈ d.nanoShift?, 0 ≤ d.monthShift ∧ 0 ≤ n

/-- Its months and its nanoseconds do not move an instant in opposite directions. -/
def RunsOneWay (d : Duration) : Prop :=
  ∀ n ∈ d.nanoShift?, 0 ≤ d.monthShift ∧ 0 ≤ n ∨ d.monthShift ≤ 0 ∧ n ≤ 0

/-- The duration moves no instant. -/
def IsStill (d : Duration) : Prop := d.calendarMonths = 0 ∧ d.clockNanos? = some 0

/-- The duration leads from the first instant to the last, counted from either. -/
def Leads (d : Duration) (first last : Instant) : Prop :=
  d.addTo? first = some last ∨ d.subtractFrom? last = some first

private theorem Leads.exists_nanoShift? {d : Duration} {first last : Instant}
    (h : d.Leads first last) :
    ∃ n, d.nanoShift? = some n := by
  rcases h with h | h
  · obtain ⟨-, n, -, hn, -⟩ := addTo?_eq_some.mp h
    exact ⟨n, hn⟩
  · obtain ⟨-, n, -, hn, -⟩ := subtractFrom?_eq_some.mp h
    exact ⟨n, hn⟩

private theorem Leads.le_iff {d : Duration} {first last : Instant} (h : d.Leads first last)
    (hway : d.RunsOneWay) : first ≤ last ↔ d.RunsForward := by
  rcases h with h | h
  · obtain ⟨moved, n, hm, hn, hu⟩ := addTo?_eq_some.mp h
    have horder := Instant.le_iff_of_moves (Instant.moves_addMonths? hm)
      (Instant.moves_addNanos? hu) (hway n hn)
    simpa [RunsForward, hn] using horder.1
  · obtain ⟨moved, n, hm, hn, hu⟩ := subtractFrom?_eq_some.mp h
    have hback : 0 ≤ -d.monthShift ∧ 0 ≤ -n ∨ -d.monthShift ≤ 0 ∧ -n ≤ 0 := by
      have hone := hway n hn
      omega
    have horder := Instant.le_iff_of_moves (Instant.moves_addMonths? hm)
      (Instant.moves_addNanos? hu) hback
    simpa [RunsForward, hn] using horder.2

/-! ### Durations with unsigned seconds -/

private theorem calendarMonths_nonneg (d : Duration) : 0 ≤ d.calendarMonths := by
  unfold calendarMonths
  omega

private theorem countable?_eq_some {a b : Int} (h : countable? a = some b) : b = a := by
  unfold countable? at h
  split at h
  · exact (Option.some.inj h).symm
  · cases h

private theorem eq_foldl_of_foldlM {parts : List Int} {acc n : Int}
    (h : parts.foldlM (fun sum part ↦ do
      let part ← countable? part
      countable? (sum + part)) acc = some n) : n = parts.foldl (fun sum part ↦ sum + part) acc := by
  induction parts generalizing acc with
  | nil =>
    cases h
    rfl
  | cons part parts ih =>
    simp only [List.foldlM_cons, Option.bind_eq_bind, Option.bind_eq_some_iff] at h
    obtain ⟨sum, ⟨counted, hcounted, hsum⟩, hrest⟩ := h
    rw [ih hrest, countable?_eq_some hsum, countable?_eq_some hcounted, List.foldl_cons]

/-- A duration of unsigned seconds has no part that counts back. -/
theorem IsUnsigned.clockNanos?_nonneg {d : Duration} (h : d.IsUnsigned) {n : Int}
    (hn : d.clockNanos? = some n) : 0 ≤ n := by
  simp only [clockNanos?, Option.bind_eq_bind, Option.bind_eq_some_iff] at hn
  obtain ⟨whole, hwhole, hsum⟩ := hn
  rcases h with hinfinite | ⟨i, hi⟩
  · rw [hinfinite] at hwhole
    cases hwhole
  · have hparts := eq_foldl_of_foldlM hsum
    have hpos : 0 ≤ whole := by
      rw [hi] at hwhole
      cases hwhole
      exact Int.natCast_nonneg _
    have hnano : 0 ≤ d.seconds.nanoPart := by
      rw [hi]
      exact Int.natCast_nonneg _
    simp only [List.foldl_cons, List.foldl_nil] at hparts
    unfold Clock.nanosPerSecond at hparts
    omega

/-- Its months and nanoseconds have one sign: that of the duration. -/
theorem IsUnsigned.runsOneWay {d : Duration} (h : d.IsUnsigned) : d.RunsOneWay := by
  intro n hn
  obtain ⟨clock, hclock, rfl⟩ := Option.map_eq_some_iff.mp hn
  have hnonneg := h.clockNanos?_nonneg hclock
  have hcalendar := d.calendarMonths_nonneg
  unfold monthShift
  split <;> omega

/-- It runs forward unless it is negative and not still. -/
theorem IsUnsigned.runsForward_iff {d : Duration} (h : d.IsUnsigned) {n : Int}
    (hn : d.nanoShift? = some n) : d.RunsForward ↔ (d.negative = true → d.IsStill) := by
  obtain ⟨clock, hclock, rfl⟩ := Option.map_eq_some_iff.mp hn
  have hnonneg := h.clockNanos?_nonneg hclock
  have hcalendar := d.calendarMonths_nonneg
  simp only [RunsForward, hn, Option.mem_some_iff, forall_eq', IsStill, hclock, monthShift]
  cases d.negative with
  | true =>
    simp only [ite_true, Option.some.injEq, forall_const]
    omega
  | false => simp [hnonneg, hcalendar]

end Duration

namespace Interval

/-- The duration on one side of the interval. -/
def length? : Interval → Option Duration
  | .between _ _ _ => none
  | .startingAt _ length => some length
  | .endingAt length _ => some length

/-- The bounds are two instants in order, or the length leads from one to the other. -/
theorem of_bounds? {i : Interval} {first last : Instant} (h : i.bounds? = some (first, last)) :
    (i.length? = none ∧ first ≤ last) ∨ ∃ d, i.length? = some d ∧ d.Leads first last := by
  cases i with
  | between start stop ordered =>
    cases h
    exact .inl ⟨rfl, ordered⟩
  | startingAt start length =>
    obtain ⟨stop, hstop, heq⟩ := Option.map_eq_some_iff.mp h
    cases heq
    exact .inr ⟨length, rfl, .inl hstop⟩
  | endingAt length stop =>
    obtain ⟨start, hstart, heq⟩ := Option.map_eq_some_iff.mp h
    cases heq
    exact .inr ⟨length, rfl, .inr hstart⟩

private theorem parse_eq_ok_iff {text : String} {i : Interval} :
    parse text = .ok i ↔ scan text.toList = .found i [] := by
  unfold parse Scanner.whole
  cases hscan : scan text.toList with
  | found b mid => cases mid <;> simp
  | missed => simp
  | refused fault => simp

/-- An interval that is read has a length of unsigned seconds. -/
theorem isUnsigned_of_parse {text : String} {i : Interval} (h : parse text = .ok i) {d : Duration}
    (hd : i.length? = some d) : d.IsUnsigned := by
  have hsides := sides_of_scan (parse_eq_ok_iff.mp h)
  cases i with
  | between start stop ordered => cases hd
  | startingAt start length =>
    cases hd
    exact hsides.2
  | endingAt length stop =>
    cases hd
    exact hsides.1

end Interval

/-- The bounds of an interval are in order exactly if its length, where it has one, runs forward, as
long as the length does not run both ways. The length of an interval that is read runs one way, and
runs forward unless it is negative and not still. -/
theorem interval_bounds_ordered_iff {i : Interval} {first last : Instant}
    (h : i.bounds? = some (first, last)) :
    ((∀ d ∈ i.length?, d.RunsOneWay) → (first ≤ last ↔ ∀ d ∈ i.length?, d.RunsForward)) ∧
    ∀ text, Interval.parse text = .ok i →
      (first ≤ last ↔ ∀ d ∈ i.length?, d.negative = true → d.IsStill) := by
  rcases Interval.of_bounds? h with ⟨hnone, hordered⟩ | ⟨d, hd, hleads⟩
  · simp [hnone, hordered]
  · constructor
    · intro hway
      rw [hleads.le_iff (hway d hd)]
      simp [hd]
    · intro text hparse
      have hunsigned := Interval.isUnsigned_of_parse hparse hd
      obtain ⟨n, hn⟩ := hleads.exists_nanoShift?
      rw [hleads.le_iff hunsigned.runsOneWay, hunsigned.runsForward_iff hn]
      simp [hd]

/-- Midnight in universal time on a day of 2020. -/
def midnight (month day : Nat) (onCalendar : Date.OnCalendar 2020 month day) : Instant :=
  ⟨⟨⟨2020, month, day, onCalendar⟩, .ofSecond 0 0, ⟨0, by decide⟩⟩,
    Timestamp.spanned_of_isShort ⟨by simp, by simp⟩⟩

/-- A month from the last day of January on. -/
def monthInterval : Interval :=
  .startingAt (midnight 1 31 (by decide)) ⟨false, 0, 1, 0, 0, 0, 0, .zero⟩

/-- The theorem at that interval. -/
theorem month_interval_bounds_ordered :
    ∃ first last, Interval.parse "2020-01-31T00:00:00Z/P1M" = .ok monthInterval ∧
      monthInterval.bounds? = some (first, last) ∧ first ≤ last := by
  have hparse : Interval.parse "2020-01-31T00:00:00Z/P1M" = .ok monthInterval :=
    Interval.parse_eq_ok_iff.mpr (by decide +kernel)
  have hbounds : monthInterval.bounds? =
      some (midnight 1 31 (by decide), midnight 2 29 (by decide)) := by
    decide +kernel
  refine ⟨_, _, hparse, hbounds, ((interval_bounds_ordered_iff hbounds).2 _ hparse).mpr ?_⟩
  intro d hd hnegative
  cases hd
  cases hnegative

/-- A negative length from an instant on is read, and leads to a stop before the start. -/
theorem backward_interval_bounds_reversed :
    ∃ i first last, Interval.parse "2020-01-02T00:00:00Z/-P1D" = .ok i ∧
      i.bounds? = some (first, last) ∧ ¬ first ≤ last := by
  refine ⟨.startingAt (midnight 1 2 (by decide)) ⟨true, 0, 0, 0, 1, 0, 0, .zero⟩,
    midnight 1 2 (by decide), midnight 1 1 (by decide), ?_, ?_, ?_⟩
  · exact Interval.parse_eq_ok_iff.mpr (by decide +kernel)
  · decide +kernel
  · decide +kernel

end SensorQuery
