import SensorQuery.Number.Numeral
import SensorQuery.Scan

/-!
# Times of day

A time of day to the nanosecond. Any minute may end in a leap second, which is written as second
60. Counted in seconds, a leap second is the second before it with a fraction from one up.
-/

namespace SensorQuery

/-- A time of day. -/
structure Clock where
  hour : Fin 24
  minute : Fin 60
  /-- The second; 60 is the leap second. -/
  second : Fin 61
  nano : Fin 1000000000
deriving DecidableEq

namespace Clock

/-- Nanoseconds of a second. -/
def nanosPerSecond : Nat := 1000000000

/-- Seconds since midnight. -/
def secondOfDay (c : Clock) : Nat := 3600 * c.hour + 60 * c.minute + min c.second.val 59

/-- Nanoseconds since that second began, from one second up in a leap second. -/
def fraction (c : Clock) : Nat := (c.second.val - 59) * nanosPerSecond + c.nano

/-- The time of day at a second and a fraction, taken round the day. -/
def ofSecond (secondOfDay fraction : Nat) : Clock where
  hour := ⟨secondOfDay / 3600 % 24, Nat.mod_lt _ (by decide)⟩
  minute := ⟨secondOfDay / 60 % 60, Nat.mod_lt _ (by decide)⟩
  second := ⟨secondOfDay % 60 + fraction / nanosPerSecond % 2, by omega⟩
  nano := ⟨fraction % nanosPerSecond, Nat.mod_lt _ (by decide)⟩

/-- The time of day with these parts, if they are in range. -/
def ofParts? (hour minute second nano : Nat) : Option Clock :=
  if h : hour < 24 ∧ minute < 60 ∧ second < 61 ∧ nano < 1000000000 then
    some ⟨⟨hour, h.1⟩, ⟨minute, h.2.1⟩, ⟨second, h.2.2.1⟩, ⟨nano, h.2.2.2⟩⟩
  else none

/-- The fraction of a second after a point, with 0, 3, 6 or 9 digits, the fewest that hold it. -/
def fractionText (nano : Nat) : List Char :=
  if nano = 0 then []
  else if nano % 1000000 = 0 then '.' :: Numeral.padded 3 (nano / 1000000)
  else if nano % 1000 = 0 then '.' :: Numeral.padded 6 (nano / 1000)
  else '.' :: Numeral.padded 9 nano

/-- The time as `10:15:00`, with a fraction where there is one. -/
def text (c : Clock) : List Char :=
  Numeral.padded 2 c.hour ++ ':' :: Numeral.padded 2 c.minute ++ ':' :: Numeral.padded 2 c.second ++
    fractionText c.nano

/-- The nanoseconds of the digits after the point. Digits after the ninth do not count. -/
def nanoOfDigits (ds : List Char) : Nat := Numeral.value ((ds ++ List.replicate 9 '0').take 9)

/-- Reads the seconds after a colon and their fraction, the parts that may be left out. -/
def scanSecond {ε : Type} : Scanner ε (Nat × Nat) := do
  Scanner.char ':'
  let second ← Scanner.exactlyOf Char.isDigit 2
  let fraction ← Scanner.optional do
    Scanner.char '.'
    Scanner.digits
  pure (Numeral.value second, nanoOfDigits (fraction.getD []))

/-- Reads `10:15`, `10:15:30` or `10:15:30.25`. -/
def scan {ε : Type} : Scanner ε Clock := do
  let hour ← Scanner.exactlyOf Char.isDigit 2
  Scanner.char ':'
  let minute ← Scanner.exactlyOf Char.isDigit 2
  let second ← Scanner.optional scanSecond
  let (second, nano) := second.getD (0, 0)
  Scanner.ofOption (ofParts? (Numeral.value hour) (Numeral.value minute) second nano)

end Clock

end SensorQuery
