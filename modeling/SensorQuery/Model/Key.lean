import SensorQuery.Model.Uuid
import SensorQuery.Number.Numeral
import SensorQuery.Text.Quoted

/-!
# Keys

An entity is addressed in its set by a key: a whole number, a quoted text or a quoted UUID. The
kind is fixed for each entity type, and with it how the text of a key is read.
-/

namespace SensorQuery

/-- A key. -/
inductive Key where
  | long (n : Int64)
  | string (s : String)
  | uuid (u : Uuid)
deriving DecidableEq

/-- The kinds of keys. -/
inductive KeyKind where
  | long
  | string
  | uuid
deriving DecidableEq

/-- Why a text is no key of a kind. -/
inductive KeyError where
  | notAnInteger (text : String)
  | outOfRange (text : String)
  | notQuoted (text : String)
  | invalidUuid (text : String)
deriving DecidableEq

/-- The wording of the error. -/
def KeyError.message : KeyError → String
  | .notAnInteger text => s!"'{text}' is not an integer key"
  | .outOfRange text => s!"integer key '{text}' is out of range"
  | .notQuoted text => s!"'{text}' is not a quoted string key"
  | .invalidUuid text => s!"'{text}' is not a valid UUID key"

namespace Key

/-- The kind of the key. -/
def kind : Key → KeyKind
  | .long _ => .long
  | .string _ => .string
  | .uuid _ => .uuid

/-- The key as it stands between parentheses. -/
def text : Key → List Char
  | .long n => Numeral.signed n.toInt
  | .string s => Text.quote s.toList
  | .uuid u => Text.quote u.text

/-- Reads a whole number, whose sign may be a minus. -/
def parseLong (text : String) : Except KeyError Key :=
  let (negative, digits) :=
    match text.toList with
    | '-' :: digits => (true, digits)
    | digits => (false, digits)
  if digits.isEmpty || !digits.all Char.isDigit then .error (.notAnInteger text)
  else
    match Numeral.int64? negative digits with
    | some n => .ok (.long n)
    | none => .error (.outOfRange text)

/-- Reads a quoted text. -/
def parseString (text : String) : Except KeyError Key :=
  match Text.unquote? text.toList with
  | some s => .ok (.string (String.ofList s))
  | none => .error (.notQuoted text)

/-- Reads a quoted UUID. -/
def parseUuid (text : String) : Except KeyError Key :=
  match Text.unquote? text.toList with
  | none => .error (.notQuoted text)
  | some s =>
    match Uuid.ofText? s with
    | some u => .ok (.uuid u)
    | none => .error (.invalidUuid text)

end Key

/-- Reads a key of the kind. -/
def KeyKind.parse : KeyKind → String → Except KeyError Key
  | .long => Key.parseLong
  | .string => Key.parseString
  | .uuid => Key.parseUuid

end SensorQuery
