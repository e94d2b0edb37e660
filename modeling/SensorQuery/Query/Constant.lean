import SensorQuery.Query.PropertyPath
import SensorQuery.Text.Blank

/-!
# Reading constants

The literals of filters, each form in its turn. A text that has begun as a duration, a geometry or
an interval and is none is refused, and so is a number beyond the range.
-/

namespace SensorQuery.Literal

open Scanner

/-- Reads a word that no character of a name follows. -/
def scanKeyword {ε : Type} (word : String) : Scanner ε Unit := do
  exactly word.toList
  notBefore RawStep.isNameChar

/-- Reads `null`, `true` or `false`. -/
def scanWord {ε : Type} : Scanner ε Literal :=
  firstOf
    [do
      scanKeyword "null"
      pure .null,
    do
      scanKeyword "true"
      pure (.boolean true),
    do
      scanKeyword "false"
      pure (.boolean false)]

/-- The text up to a blank, a closing parenthesis or a comma, as messages quote it. -/
def quotedInMessage (s : List Char) : List Char :=
  s.takeWhile fun c ↦ !(Text.isBlank c || c == ')' || c == ',')

/-- Reads `duration'…'`. -/
def scanDuration : Scanner ExpressionError Literal := do
  exactly "duration'".toList
  orElse
    (do
      let d ← Duration.scan
      char '\''
      pure (.duration d))
    fun s ↦
      let text := ((quotedInMessage s).reverse.dropWhile (· == '\'')).reverse
      .refused (.literal (.duration (String.ofList text)))

/-- Reads a text in quotes, in which a quote is written twice. -/
def scanString {ε : Type} : Scanner ε (List Char) := do
  char '\''
  let body ← many <| orElse
    (do
      exactly ['\'', '\'']
      pure '\'')
    (satisfy (· != '\''))
  char '\''
  pure body

/-- The words that a geometry may begin with. -/
def geometryWords : List String :=
  ["POINT", "LINESTRING", "POLYGON", "MULTIPOINT", "MULTILINESTRING", "MULTIPOLYGON",
    "GEOMETRYCOLLECTION"]

/-- The text begins with the word in upper case, and coordinates or `EMPTY` follow. -/
def beginsGeometry (upper : List Char) (word : String) : Bool :=
  word.toList.isPrefixOf upper &&
    match (Text.trimStart (upper.drop word.toList.length)).head? with
    | some c => c == '(' || c == 'E'
    | none => false

/-- The text begins as a geometry; the case of ASCII letters does not count. -/
def isGeometry (wkt : List Char) : Bool :=
  geometryWords.any (beginsGeometry ((Text.trimStart wkt).map Char.toUpper))

/-- Reads `geography'…'` or `geometry'…'`. -/
def scanGeometry : Scanner ExpressionError Literal := do
  orElse (exactly "geography".toList) (exactly "geometry".toList)
  let wkt ← scanString
  if isGeometry wkt then pure (.geometry (String.ofList wkt))
  else refuse (.geometry (String.ofList wkt))

/-- Reads an interval; one that is refused is quoted in the message. -/
def scanInterval : Scanner ExpressionError Literal := fun s ↦
  mapCause (fun fault ↦ .literal (.interval (String.ofList (quotedInMessage s)) fault))
    (do
      let i ← Interval.scan
      pure (.interval i)) s

/-- Reads an interval, an instant, a date without a time, or a time of day. -/
def scanTemporal : Scanner ExpressionError Literal :=
  firstOf
    [scanInterval,
    do
      let t ← Instant.scan
      pure (.dateTime t),
    do
      let d ← Date.scan
      notBefore (· == 'T')
      pure (.date d),
    do
      let c ← Clock.scan
      pure (.time c)]

/-- The power of ten of a number, as it is written. -/
structure Power where
  mark : Char
  sign : Option Char
  digits : List Char

/-- A number as it is written. -/
structure Spelling where
  negative : Bool
  whole : List Char
  fraction : Option (List Char)
  power : Option Power

namespace Spelling

/-- The number in the characters it was read from. -/
def text (n : Spelling) : List Char :=
  let fraction := (n.fraction.map ('.' :: ·)).getD []
  let power := (n.power.map fun p ↦ p.mark :: (p.sign.toList ++ p.digits)).getD []
  (if n.negative then ['-'] else []) ++ n.whole ++ fraction ++ power

/-- The floating-point number. -/
def double (n : Spelling) : Binary64 :=
  let fraction := n.fraction.getD []
  let power : Int := (n.power.map fun p ↦
    if p.sign = some '-' then -(Numeral.value p.digits : Int) else Numeral.value p.digits).getD 0
  Binary64.ofDecimal n.negative (Numeral.value (n.whole ++ fraction)) (power - fraction.length)

/-- The number as an integer, if it is written as one and within 64 bits. -/
def integer? (n : Spelling) : Option Int64 :=
  if n.fraction.isNone && n.power.isNone then Numeral.int64? n.negative n.whole else none

/-- Reads a power of ten. -/
def scanPower {ε : Type} : Scanner ε Power := do
  let mark ← satisfy fun c ↦ c == 'e' || c == 'E'
  let sign ← optional (satisfy fun c ↦ c == '+' || c == '-')
  let ds ← digits
  pure ⟨mark, sign, ds⟩

/-- Reads a number that no character of a name follows. -/
def scan {ε : Type} : Scanner ε Spelling := do
  let sign ← optional (char '-')
  let whole ← digits
  let fraction ← optional do
    char '.'
    digits
  let power ← optional scanPower
  notBefore RawStep.isNameChar
  pure ⟨sign.isSome, whole, fraction, power⟩

end Spelling

/-- Reads a number: an integer within 64 bits, or else a floating-point number, which must be
finite. -/
def scanNumber : Scanner ExpressionError Literal := do
  let n ← Spelling.scan
  match n.integer? with
  | some i => pure (.integer i)
  | none =>
    if n.double.isFinite then pure (.double n.double)
    else refuse (.literal (.number (String.ofList n.text)))

/-- Reads a literal of any form. -/
def scan : Scanner ExpressionError Literal :=
  firstOf
    [scanWord, scanDuration, scanGeometry, scanTemporal, scanNumber,
    do
      let s ← scanString
      pure (.string (String.ofList s))]

end SensorQuery.Literal
