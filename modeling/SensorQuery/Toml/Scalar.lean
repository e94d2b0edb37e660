import SensorQuery.Number.Binary64
import SensorQuery.Text.Hex
import SensorQuery.Time.Date
import SensorQuery.Toml.Value

/-!
# TOML scalars

The spellings of the values that hold no others, and of keys. Strings stand in double quotes with
escapes or in single quotes without, on one line or, in three quotes, on several. Digits may be
grouped by single underscores.
-/

-- A power of a number is computed as such, whatever algebraic structures are in scope.
attribute [local instance (2000)] instPowNat

namespace SensorQuery.Toml

variable {ε : Type}

/-- Space or tab. -/
def isGap (c : Char) : Bool := c = ' ' || c = '\t'

/-- A character that may stand on a line: no control character but the tab. -/
def isPrintable (c : Char) : Bool := c = '\t' || (' ' ≤ c && c ≠ '\x7f')

/-- Spaces and tabs, which may be absent. -/
def gap : Scanner ε Unit := do
  let _ ← Scanner.run isGap
  pure ()

/-- The end of a line, before which a carriage return may stand. -/
def newline : Scanner ε Unit := .orElse (.exactly ['\n']) (.exactly ['\r', '\n'])

/-- A number sign and what follows it on the line. -/
def comment : Scanner ε Unit := do
  Scanner.char '#'
  let _ ← Scanner.run isPrintable
  pure ()

/-- Spaces, tabs, line ends and comments. -/
def space : Scanner ε Unit := do
  let _ ← Scanner.many (Scanner.firstOf
    [do let _ ← Scanner.run1 isGap; pure (), newline, do comment; newline])
  pure ()

/-! ## Strings -/

/-- A backslash and what it makes of the characters after it. -/
def escaped : Scanner ε Char := do
  Scanner.char '\\'
  let c ← Scanner.satisfy fun _ ↦ true
  match c with
  | 'b' => pure '\x08'
  | 't' => pure '\t'
  | 'n' => pure '\n'
  | 'f' => pure '\x0c'
  | 'r' => pure '\r'
  | '"' => pure '"'
  | '\\' => pure '\\'
  | 'u' => Text.scanCodePoint 4
  | 'U' => Text.scanCodePoint 8
  | _ => Scanner.miss

/-- A character that stands for itself in double quotes. -/
def isPlain (c : Char) : Bool := isPrintable c && c ≠ '"' && c ≠ '\\'

/-- A character that stands for itself in single quotes. -/
def isLiteral (c : Char) : Bool := isPrintable c && c ≠ '\''

/-- A string in double quotes on one line. -/
def basicString : Scanner ε String := do
  Scanner.char '"'
  let cs ← Scanner.many (.orElse (Scanner.satisfy isPlain) escaped)
  Scanner.char '"'
  pure (String.ofList cs)

/-- A string in single quotes on one line. -/
def literalString : Scanner ε String := do
  Scanner.char '\''
  let cs ← Scanner.run isLiteral
  Scanner.char '\''
  pure (String.ofList cs)

/-- One or two quotes inside a string on several lines. -/
def innerQuotes (q : Char) : Scanner ε (List Char) := do
  let qs ← Scanner.run1 (· == q)
  if qs.length < 3 then pure qs else Scanner.miss

/-- The three quotes at the end of a string on several lines, with up to two in front of them that
belong to the string. -/
def closingQuotes (q : Char) : Scanner ε (List Char) := do
  let qs ← Scanner.run1 (· == q)
  if 3 ≤ qs.length ∧ qs.length ≤ 5 then pure (qs.drop 3) else Scanner.miss

/-- A backslash at the end of a line, with the blank text up to the next character that is not. -/
def continuation : Scanner ε Unit := do
  Scanner.char '\\'
  gap
  newline
  let _ ← Scanner.many (Scanner.orElse (do let _ ← Scanner.run1 isGap; pure ()) newline)
  pure ()

/-- A string on several lines between three quotes, made of pieces; a line end right after the
quotes is dropped, and each other is a line feed. -/
def multiline (q : Char) (pieces : List (Scanner ε (List Char))) : Scanner ε String := do
  Scanner.exactly [q, q, q]
  let _ ← Scanner.optional newline
  let cs ← Scanner.many (Scanner.firstOf
    (pieces ++ [do newline; pure ['\n'], innerQuotes q]))
  let qs ← closingQuotes q
  pure (String.ofList (cs.flatten ++ qs))

/-- One character as a piece of text. -/
def piece (p : Scanner ε Char) : Scanner ε (List Char) := do
  let c ← p
  pure [c]

/-- A string of any of the four forms. -/
def string : Scanner ε String := Scanner.firstOf
  [multiline '"' [piece (Scanner.satisfy isPlain), do continuation; pure [], piece escaped],
    basicString,
    multiline '\'' [piece (Scanner.satisfy isLiteral)],
    literalString]

/-! ## Keys -/

/-- Letters, digits, underscores and hyphens of ASCII. -/
def bareKey : Scanner ε String := do
  let cs ← Scanner.run1 fun c ↦ c.isAlphanum || c = '_' || c = '-'
  pure (String.ofList cs)

/-- A key is nested fewer times than this, and so is a value. -/
def depthLimit : Nat := 80

/-- Keys with dots between them: those that lead to a table, and the last. -/
def dottedKey : Scanner ε (List String × String) := do
  let keys ← Scanner.separated (Scanner.char '.') (do
    gap
    let key ← Scanner.firstOf [basicString, literalString, bareKey]
    gap
    pure key)
  let last ← Scanner.ofOption keys.getLast?
  if keys.length < depthLimit then pure (keys.dropLast, last) else Scanner.miss

/-! ## Numbers -/

/-- Digits of a class, between which single underscores may stand. -/
def grouped (p : Char → Bool) : Scanner ε (List Char) := do
  let d ← Scanner.satisfy p
  let ds ← Scanner.many (do
    let _ ← Scanner.optional (Scanner.char '_')
    Scanner.satisfy p)
  pure (d :: ds)

/-- A sign, which may be absent; true for a minus. -/
def sign : Scanner ε Bool := do
  let c ← Scanner.optional (Scanner.satisfy fun c ↦ c = '+' || c = '-')
  pure (c == some '-')

/-- Decimal digits without a leading zero, unless zero is the only one. -/
def decimalDigits : Scanner ε (List Char) := do
  let ds ← grouped Char.isDigit
  if ds.head? = some '0' ∧ 1 < ds.length then Scanner.miss else pure ds

/-- A whole number of 64 bits with a sign. -/
def decimalInteger : Scanner ε Int64 := do
  let negative ← sign
  let ds ← decimalDigits
  Scanner.ofOption (Numeral.int64? negative ds)

/-- A whole number in another base, without a sign, after a zero and the letter of the base. -/
def basedInteger (letter : Char) (base : Nat) : Scanner ε Int64 := do
  Scanner.exactly ['0', letter]
  let ds ← grouped fun c ↦ (Text.hexDigit? c).any (· < base)
  let n := Text.basedValue base ds
  if n < 2 ^ (63 : Nat) then pure (Int64.ofNat n) else Scanner.miss

/-- A whole number in base 16, 8, 2 or 10. -/
def integer : Scanner ε Int64 := Scanner.firstOf
  [basedInteger 'x' 16, basedInteger 'o' 8, basedInteger 'b' 2, decimalInteger]

/-- A power of ten: the letter, a sign and digits. -/
def exponent : Scanner ε Int := do
  let _ ← Scanner.satisfy fun c ↦ c = 'e' || c = 'E'
  let negative ← sign
  let ds ← grouped Char.isDigit
  pure (if negative then -(Numeral.value ds : Int) else Numeral.value ds)

/-- The digits after a decimal point. -/
def fraction : Scanner ε (List Char) := do
  Scanner.char '.'
  grouped Char.isDigit

/-- A number with a fraction, an exponent or both. One that lies above the largest finite number
does not stand; below the least it counts as minus infinity. -/
def decimalFloat : Scanner ε Unit := do
  let negative ← sign
  let whole ← decimalDigits
  let (part, power) ← Scanner.orElse
    (do let power ← exponent; pure ([], power))
    (do
      let part ← fraction
      let power ← Scanner.optional exponent
      pure (part, power.getD 0))
  let x := Binary64.ofDecimal negative (Numeral.value (whole ++ part)) (power - part.length)
  if x = .infinite false then Scanner.miss else pure ()

/-- A floating-point number. -/
def float : Scanner ε Unit :=
  .orElse decimalFloat (do
    let _ ← sign
    Scanner.orElse (Scanner.exactly "inf".toList) (Scanner.exactly "nan".toList))

/-! ## Dates and times -/

/-- A number of two digits within bounds. -/
def twoDigits (low high : Nat) : Scanner ε Nat := do
  let ds ← Scanner.exactlyOf Char.isDigit 2
  let n := Numeral.value ds
  if low ≤ n ∧ n ≤ high then pure n else Scanner.miss

/-- A day of the calendar. -/
def date : Scanner ε Date := do
  let year ← Scanner.exactlyOf Char.isDigit 4
  Scanner.char '-'
  let month ← twoDigits 1 12
  Scanner.char '-'
  let day ← twoDigits 1 31
  Scanner.ofOption (Date.ofYearMonthDay? (Numeral.value year) month day)

/-- A time of day, whose seconds may have a fraction. -/
def time : Scanner ε Unit := do
  let _ ← twoDigits 0 23
  Scanner.char ':'
  let _ ← twoDigits 0 59
  Scanner.char ':'
  let _ ← twoDigits 0 60
  let _ ← Scanner.optional (do Scanner.char '.'; Scanner.digits)
  pure ()

/-- A distance from universal time. -/
def offset : Scanner ε Unit := .orElse
  (do let _ ← Scanner.satisfy fun c ↦ c = 'Z' || c = 'z'; pure ())
  (do
    let _ ← Scanner.satisfy fun c ↦ c = '+' || c = '-'
    let _ ← twoDigits 0 23
    Scanner.char ':'
    let _ ← twoDigits 0 59
    pure ())

/-- A date, a time or both, with an offset or without. -/
def moment : Scanner ε Unit := .orElse
  (do
    let _ ← date
    let _ ← Scanner.optional (do
      let _ ← Scanner.satisfy fun c ↦ c = 'T' || c = 't' || c = ' '
      time
      Scanner.optional offset)
    pure ())
  time

/-- A value that holds no others. -/
def scalar : Scanner ε Value := Scanner.firstOf
  [do let s ← string; pure (.string s),
    do moment; pure .moment,
    do float; pure .float,
    do let n ← integer; pure (.integer n),
    do Scanner.exactly "true".toList; pure (.boolean true),
    do Scanner.exactly "false".toList; pure (.boolean false)]

end SensorQuery.Toml
