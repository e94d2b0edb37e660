import SensorQuery.Text.Quoted
import SensorQuery.Time.Interval

/-!
# Literals

The constants of filter expressions: their text, their coarse kinds, and the readings of single
temporal literals that hold a whole text.
-/

namespace SensorQuery

/-- A constant. -/
inductive Literal where
  | null
  | boolean (b : Bool)
  | integer (n : Int64)
  | double (x : Binary64)
  | string (s : String)
  | dateTime (t : Instant)
  | date (d : Date)
  | time (c : Clock)
  | duration (d : Duration)
  | interval (i : Interval)
  /-- A geometry in well-known text, kept as it is written. -/
  | geometry (wkt : String)
deriving DecidableEq

/-- What a text that should be a literal fails on. -/
inductive LiteralError where
  | dateTime (text : String)
  | duration (text : String)
  | number (text : String)
  | interval (text : String) (fault : IntervalFault)
deriving DecidableEq

/-- The wording of the error. -/
def LiteralError.message : LiteralError → String
  | .dateTime text => s!"invalid date-time literal '{text}'"
  | .duration text => s!"invalid duration literal '{text}'"
  | .number text => s!"number literal '{text}' is out of range"
  | .interval text fault => s!"invalid interval literal '{text}': {fault.message}"

namespace Literal

/-- The coarse classes of literals. -/
inductive Kind where
  | null
  | boolean
  | numeric
  | text
  | temporal
  | geometry
deriving DecidableEq

/-- The class of the literal. -/
def kind : Literal → Kind
  | .null => .null
  | .boolean _ => .boolean
  | .integer _ => .numeric
  | .double _ => .numeric
  | .string _ => .text
  | .dateTime _ => .temporal
  | .date _ => .temporal
  | .time _ => .temporal
  | .duration _ => .temporal
  | .interval _ => .temporal
  | .geometry _ => .geometry

/-- The text of a string literal. -/
def string? : Literal → Option String
  | .string s => some s
  | _ => none

/-- The literals are of one form and their values are the same: numbers as numbers, instants as
points in time. -/
def same : Literal → Literal → Bool
  | .double x, .double y => x.same y
  | .dateTime a, .dateTime b => a.same b
  | .duration a, .duration b => a.same b
  | .interval a, .interval b => a.same b
  | .null, .null => true
  | .boolean a, .boolean b => a = b
  | .integer a, .integer b => a = b
  | .string a, .string b => a = b
  | .date a, .date b => a = b
  | .time a, .time b => a = b
  | .geometry a, .geometry b => a = b
  | _, _ => false

/-- The literal as a filter writes it. -/
def text : Literal → List Char
  | .null => ['n', 'u', 'l', 'l']
  | .boolean true => ['t', 'r', 'u', 'e']
  | .boolean false => ['f', 'a', 'l', 's', 'e']
  | .integer n => Numeral.signed n.toInt
  | .double x => x.text
  | .string s => Text.quote s.toList
  | .dateTime t => t.text
  | .date d => d.text
  | .time c => c.text
  | .duration d => "duration'".toList ++ d.text ++ ['\'']
  | .interval i => i.text
  | .geometry wkt => "geography".toList ++ Text.quote wkt.toList

end Literal

namespace Instant

/-- The instant that the whole text denotes. -/
def parse (text : String) : Except LiteralError Instant :=
  match Scanner.whole? (scan (ε := Empty)) text.toList with
  | some t => .ok t
  | none => .error (.dateTime text)

end Instant

namespace Duration

/-- The duration that the whole text denotes. -/
def parse (text : String) : Except LiteralError Duration :=
  match Scanner.whole? (scan (ε := Empty)) text.toList with
  | some d => .ok d
  | none => .error (.duration text)

end Duration

namespace Interval

/-- The interval that the whole text denotes. -/
def parse (text : String) : Except LiteralError Interval :=
  match Scanner.whole scan text.toList with
  | .found i _ => .ok i
  | .missed => .error (.interval text .malformed)
  | .refused fault => .error (.interval text fault)

/-- The interval with these sides, or an error that shows how they would have been written. -/
def make (start stop : Bound) : Except LiteralError Interval :=
  match ofBounds start stop with
  | .ok i => .ok i
  | .error fault => .error (.interval (String.ofList (sidesText start stop)) fault)

end Interval

end SensorQuery
