import SensorQuery.Number.Shortest
import SensorQuery.Time.Instant

/-!
# Durations

A length of time such as `P1DT2H` or `-PT0.5S`. Months and years stay apart from the other parts,
since their length depends on where they are counted from.
-/

-- A power of a number is computed as such, whatever algebraic structures are in scope.
attribute [local instance (2000)] instPowNat

namespace SensorQuery

/-- A length of time by its parts, with one sign for all of them. -/
structure Duration where
  negative : Bool
  years : UInt32
  months : UInt32
  weeks : UInt32
  days : UInt32
  hours : UInt32
  minutes : UInt32
  seconds : Binary64
deriving DecidableEq

namespace Duration

/-- Every part is zero. -/
def isZero (d : Duration) : Bool :=
  d.years = 0 && d.months = 0 && d.weeks = 0 && d.days = 0 && d.hours = 0 && d.minutes = 0 &&
    d.seconds.isZero

/-- The durations agree in sign and parts, the seconds as numbers. -/
def same (a b : Duration) : Bool :=
  a.negative = b.negative && a.years = b.years && a.months = b.months && a.weeks = b.weeks &&
    a.days = b.days && a.hours = b.hours && a.minutes = b.minutes && a.seconds.same b.seconds

/-- Years and months, in months. -/
def calendarMonths (d : Duration) : Int := 12 * d.years.toNat + d.months.toNat

/-- The longest time that shifts count in nanoseconds: `2 ^ 63 - 1` milliseconds. -/
def longestNanos : Int := (2 ^ (63 : Nat) - 1) * 1000000

/-- The time, unless it is longer than the longest. -/
def countable? (nanos : Int) : Option Int :=
  if -longestNanos ≤ nanos ∧ nanos ≤ longestNanos then some nanos else none

/-- Weeks, days, hours, minutes and seconds, in nanoseconds; neither a part nor a sum on the way
may be longer than the longest time. -/
def clockNanos? (d : Duration) : Option Int := do
  let second : Int := Clock.nanosPerSecond
  let whole ← d.seconds.wholePart?
  let parts : List Int :=
    [86400 * second * (7 * d.weeks.toNat + d.days.toNat), 3600 * second * d.hours.toNat,
      60 * second * d.minutes.toNat, second * whole, d.seconds.nanoPart]
  parts.foldlM (fun sum part ↦ do
    let part ← countable? part
    countable? (sum + part)) 0

/-- The instant later by the parts, whatever the sign. -/
def forward? (d : Duration) (t : Instant) : Option Instant := do
  let moved ← t.addMonths? d.calendarMonths
  moved.addNanos? (← d.clockNanos?)

/-- The instant earlier by the parts, whatever the sign. -/
def backward? (d : Duration) (t : Instant) : Option Instant := do
  let moved ← t.addMonths? (-d.calendarMonths)
  moved.addNanos? (-(← d.clockNanos?))

/-- The instant later by the duration. -/
def addTo? (d : Duration) (t : Instant) : Option Instant :=
  if d.negative then d.backward? t else d.forward? t

/-- The instant earlier by the duration. -/
def subtractFrom? (d : Duration) (t : Instant) : Option Instant :=
  if d.negative then d.forward? t else d.backward? t

/-- A part with its designator; a part that is zero is not written. -/
def partText (n : UInt32) (designator : Char) : List Char :=
  if n = 0 then [] else Nat.toDigits 10 n.toNat ++ [designator]

/-- The seconds with their designator; only a positive number is written. -/
def secondsText (x : Binary64) : List Char :=
  if x.isPositive then x.plainText ++ ['S'] else []

/-- The duration as `P1Y2M3W4DT5H6M7.5S`, without the parts that are zero. -/
def text (d : Duration) : List Char :=
  let sign := if d.negative then ['-'] else []
  let calendar := partText d.years 'Y' ++ partText d.months 'M' ++ partText d.weeks 'W' ++
    partText d.days 'D'
  let clock := partText d.hours 'H' ++ partText d.minutes 'M' ++ secondsText d.seconds
  sign ++ 'P' ::
    if d.isZero then ['T', '0', 'S']
    else calendar ++ if clock.isEmpty then [] else 'T' :: clock

/-- Reads a number below `2 ^ 32` and its designator. -/
def scanPart {ε : Type} (designator : Char) : Scanner ε UInt32 := do
  let digits ← Scanner.digits
  Scanner.char designator
  Scanner.ofOption (Numeral.uint32? digits)

/-- Reads seconds with an optional fraction and their designator. -/
def scanSeconds {ε : Type} : Scanner ε Binary64 := do
  let whole ← Scanner.digits
  let fraction ← Scanner.optional do
    Scanner.char '.'
    Scanner.digits
  Scanner.char 'S'
  let fraction := fraction.getD []
  pure (Binary64.ofDecimal false (Numeral.value (whole ++ fraction)) (-fraction.length))

/-- The parts after the `T`, each of which may be absent. -/
structure ClockPart where
  hours : Option UInt32
  minutes : Option UInt32
  seconds : Option Binary64

/-- Reads the parts after a `T`. -/
def scanClockPart {ε : Type} : Scanner ε ClockPart := do
  Scanner.char 'T'
  let hours ← Scanner.optional (scanPart 'H')
  let minutes ← Scanner.optional (scanPart 'M')
  let seconds ← Scanner.optional scanSeconds
  pure ⟨hours, minutes, seconds⟩

/-- No part is there. -/
def ClockPart.isEmpty (c : ClockPart) : Bool :=
  c.hours.isNone && c.minutes.isNone && c.seconds.isNone

/-- Reads a duration with at least one part, and at least one part after a `T`. A part that is out
of range counts as absent, and its digits stay unread. -/
def scan {ε : Type} : Scanner ε Duration := do
  let sign ← Scanner.optional (Scanner.char '-')
  Scanner.char 'P'
  let years ← Scanner.optional (scanPart 'Y')
  let months ← Scanner.optional (scanPart 'M')
  let weeks ← Scanner.optional (scanPart 'W')
  let days ← Scanner.optional (scanPart 'D')
  let clock ← Scanner.optional scanClockPart
  let noCalendar := years.isNone && months.isNone && weeks.isNone && days.isNone
  if (clock.map ClockPart.isEmpty).getD noCalendar then Scanner.miss
  else
    let clock := clock.getD ⟨none, none, none⟩
    pure
      { negative := sign.isSome
        years := years.getD 0
        months := months.getD 0
        weeks := weeks.getD 0
        days := days.getD 0
        hours := clock.hours.getD 0
        minutes := clock.minutes.getD 0
        seconds := clock.seconds.getD .zero }

end Duration

end SensorQuery
