import SensorQuery.Time.Clock
import SensorQuery.Time.Date

/-!
# Instants

A timestamp is a local date and time with the offset of local from universal time. It is an instant,
a point in time, if its day in universal time lies in the years from -262143 to 262142. Instants are
compared on the line of universal time, whatever their offsets. Shifts move an instant by whole
months of the local calendar or by nanoseconds, and fail where they would leave these years.
-/

namespace SensorQuery

/-- How many minutes local time is ahead of universal time, less than a day. Offsets with seconds
are left out: texts give hours and minutes, and shifts keep the offset. -/
structure Offset where
  minutes : Int
  within_day : -1440 < minutes ∧ minutes < 1440
deriving DecidableEq

namespace Offset

/-- The offset of this many minutes, if it is less than a day. -/
def ofMinutes? (minutes : Int) : Option Offset :=
  if h : -1440 < minutes ∧ minutes < 1440 then some ⟨minutes, h⟩ else none

/-- The offset as `Z` or `+01:00`. -/
def text (o : Offset) : List Char :=
  if o.minutes = 0 then ['Z']
  else (if o.minutes < 0 then '-' else '+') ::
    Numeral.padded 2 (o.minutes.natAbs / 60) ++ ':' :: Numeral.padded 2 (o.minutes.natAbs % 60)

/-- Reads `Z`, or a sign, hours and minutes below 60. -/
def scan {ε : Type} : Scanner ε Offset :=
  Scanner.orElse
    (do
      Scanner.char 'Z'
      Scanner.ofOption (ofMinutes? 0))
    (do
      let sign ← Scanner.satisfy fun c ↦ c == '+' || c == '-'
      let hours ← Scanner.exactlyOf Char.isDigit 2
      Scanner.char ':'
      let minutes ← Scanner.exactlyOf Char.isDigit 2
      let total : Int := 60 * Numeral.value hours + Numeral.value minutes
      Scanner.ofOption <|
        if Numeral.value minutes < 60 then ofMinutes? (if sign = '-' then -total else total)
        else none)

end Offset

/-- A local date and time with the offset of local from universal time. -/
structure Timestamp where
  date : Date
  clock : Clock
  offset : Offset
deriving DecidableEq

namespace Timestamp

/-- Seconds since the start of 1970 in universal time; a leap second counts as the one before. -/
def second (t : Timestamp) : Int :=
  86400 * t.date.dayNumber + t.clock.secondOfDay - 60 * t.offset.minutes

/-- The day in universal time, by its number. -/
def universalDay (t : Timestamp) : Int := t.second / 86400

/-- The years that the calendar in use spans. -/
def InSpan (year : Int) : Prop := -262143 ≤ year ∧ year ≤ 262142

instance (year : Int) : Decidable (InSpan year) := inferInstanceAs (Decidable (_ ∧ _))

/-- The day in universal time is in the span of the calendar. -/
def Spanned (t : Timestamp) : Prop := InSpan (Date.ofDayNumber t.universalDay).year

instance (t : Timestamp) : Decidable t.Spanned := inferInstanceAs (Decidable (InSpan _))

/-- The timestamp at a second of universal time and a fraction, written in an offset. -/
def ofSecond (second : Int) (fraction : Nat) (offset : Offset) : Timestamp :=
  let here := second + 60 * offset.minutes
  { date := Date.ofDayNumber (here / 86400)
    clock := Clock.ofSecond (here % 86400).toNat fraction
    offset }

/-- The timestamp as `2012-12-03T10:15:00Z`, with a fraction of the second where there is one. -/
def text (t : Timestamp) : List Char :=
  t.date.text ++ 'T' :: t.clock.text ++ t.offset.text

end Timestamp

/-- A point in time with the offset it is written in. -/
structure Instant extends Timestamp where
  spanned : toTimestamp.Spanned
deriving DecidableEq

namespace Instant

/-- The timestamp as an instant, if the calendar has its day in universal time. -/
def ofTimestamp? (t : Timestamp) : Option Instant :=
  if h : t.Spanned then some ⟨t, h⟩ else none

/-- The instants are the same point in time. -/
def same (a b : Instant) : Bool := a.second = b.second ∧ a.clock.fraction = b.clock.fraction

instance : LE Instant where
  le a b := a.second < b.second ∨ (a.second = b.second ∧ a.clock.fraction ≤ b.clock.fraction)

instance (a b : Instant) : Decidable (a ≤ b) := inferInstanceAs (Decidable (_ ∨ _))

/-- The instant later by a number of months, which may be negative. A day that the month does not
have becomes its last. -/
def addMonths? (months : Int) (t : Instant) : Option Instant :=
  if months = 0 then some t
  else do
    let total := 12 * t.date.year + (t.date.month - 1) + months
    let year := total / 12
    let month := (total % 12).toNat + 1
    let date ← Date.ofYearMonthDay? year month (min t.date.day (Date.daysInMonth year month))
    if Timestamp.InSpan year then ofTimestamp? { t.toTimestamp with date } else none

/-- The instant later by a number of nanoseconds, which may be negative. In a leap second the
fraction runs on past one, and a shift that leaves it counts from the second before it; a shift
back of a second or more counts from the second after it. -/
def addNanos? (nanos : Int) (t : Instant) : Option Instant :=
  let unit : Int := Clock.nanosPerSecond
  let fraction : Int := t.clock.fraction
  let part := nanos.tmod unit
  if unit ≤ fraction ∧ nanos.tdiv unit = 0 ∧ ¬ (0 < part ∧ 2 * unit ≤ fraction + part) then
    ofTimestamp? (.ofSecond t.second (fraction + part).toNat t.offset)
  else
    let skipped := if unit ≤ fraction ∧ 0 ≤ nanos then unit else 0
    let total := unit * t.second + fraction - skipped + nanos
    ofTimestamp? (.ofSecond (total / unit) (total % unit).toNat t.offset)

/-- Reads `2012-12-03T10:15:00Z`; seconds may be left out, the offset may not. -/
def scan {ε : Type} : Scanner ε Instant := do
  let date ← Date.scan
  Scanner.char 'T'
  let clock ← Clock.scan
  let offset ← Offset.scan
  Scanner.ofOption (ofTimestamp? ⟨date, clock, offset⟩)

end Instant

end SensorQuery
