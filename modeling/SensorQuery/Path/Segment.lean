import SensorQuery.Number.Numeral
import SensorQuery.Scan

/-!
# Path segments

The segments of a resource path as they are written, before the model gives them a meaning: a name,
an optional key in parentheses, and indices in brackets. Inside a key, quotes keep slashes,
brackets and parentheses from ending it.
-/

namespace SensorQuery

/-- A segment of a path. -/
structure Segment where
  name : String
  key : Option String
  indices : List UInt64
deriving DecidableEq

namespace Segment

/-- A character that may stand in the name of a segment. -/
def isNameChar (c : Char) : Bool :=
  c != '/' && c != '(' && c != ')' && c != '[' && c != ']'

/-- The name may be written as a segment. -/
def Writable (name : String) : Prop := name ≠ "" ∧ name.toList.all isNameChar

/-- Reads a text in quotes, in which a quote is written twice, and gives it as it is written. -/
def scanQuoted {ε : Type} : Scanner ε (List Char) := do
  Scanner.char '\''
  let body ← Scanner.many <| Scanner.orElse
    (do
      Scanner.exactly ['\'', '\'']
      pure ['\'', '\''])
    (Scanner.run1 (· != '\''))
  Scanner.char '\''
  pure ('\'' :: body.flatten ++ ['\''])

/-- Reads a key up to the parenthesis that closes it outside quotes. -/
def scanKey {ε : Type} : Scanner ε String := do
  Scanner.char '('
  let parts ← Scanner.many <| Scanner.orElse scanQuoted
    (Scanner.run1 fun c ↦ c != ')' && c != '\'')
  Scanner.char ')'
  pure (String.ofList parts.flatten)

/-- Reads a number below `2 ^ 64`. -/
def scanNumber {ε : Type} : Scanner ε UInt64 := do
  let digits ← Scanner.digits
  Scanner.ofOption (Numeral.uint64? digits)

/-- Reads a number in brackets. -/
def scanIndex {ε : Type} : Scanner ε UInt64 := do
  Scanner.char '['
  let i ← scanNumber
  Scanner.char ']'
  pure i

/-- Reads a segment after its slash. -/
def scan {ε : Type} : Scanner ε Segment := do
  Scanner.char '/'
  let name ← Scanner.run1 isNameChar
  let key ← Scanner.optional scanKey
  let indices ← Scanner.many scanIndex
  pure ⟨String.ofList name, key, indices⟩

/-- The segments of a whole path, at least one. -/
def ofPath? (path : String) : Option (List Segment) :=
  let scanAll : Scanner Empty (List Segment) := do
    let first ← scan
    let others ← Scanner.many scan
    pure (first :: others)
  scanAll.whole? path.toList

end Segment

end SensorQuery
