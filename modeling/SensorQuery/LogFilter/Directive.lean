import SensorQuery.LogFilter.Pattern
import SensorQuery.Number.Numeral
import SensorQuery.Text.Blank
import SensorQuery.Text.Split
import SensorQuery.Text.Utf8

/-!
# Log filters

A log filter is a list of directives with commas between them. A directive is a level; or a target,
a span in brackets or both, maybe with a level after an equals sign. A span may require a field in
braces to have a value. What is logged is no part of any answer, so only the form of a filter
matters.
-/

namespace SensorQuery.LogFilter

/-! ## Levels -/

/-- The names of the levels. -/
def levelNames : List String := ["off", "error", "warn", "info", "debug", "trace"]

/-- A whole number up to five, maybe after a plus sign. -/
def isLevelNumber (s : List Char) : Bool :=
  let ds := if s.head? = some '+' then s.drop 1 else s
  !ds.isEmpty && ds.all Char.isDigit && Numeral.value ds ≤ 5

/-- A level by name, in either case, or by number; an empty text stands for all. -/
def isLevel (s : List Char) : Bool :=
  s.isEmpty || levelNames.contains (String.ofList (s.map Char.toLower)) || isLevelNumber s

/-! ## Fields -/

/-- Reads a number, the infinite ones and what is none included. -/
def scanNumber {ε : Type} : Scanner ε Unit := do
  let _ ← Scanner.optional (Scanner.satisfy fun c ↦ c == '+' || c == '-')
  let letters ← Scanner.run Char.isAlpha
  if ["inf", "infinity", "nan"].contains (String.ofList (letters.map Char.toLower)) then pure ()
  else if !letters.isEmpty then Scanner.miss
  else do
    let whole ← Scanner.run Char.isDigit
    let fraction ← Scanner.optional do
      Scanner.char '.'
      Scanner.run Char.isDigit
    let _ ← Scanner.optional do
      let _ ← Scanner.satisfy fun c ↦ c == 'e' || c == 'E'
      let _ ← Scanner.optional (Scanner.satisfy fun c ↦ c == '+' || c == '-')
      Scanner.digits
    if whole.isEmpty && (fraction.getD []).isEmpty then Scanner.miss else pure ()

/-- A value of a field: a number or a pattern. -/
def isFieldValue (s : List Char) : Bool :=
  ((scanNumber (ε := Empty)).whole? s).isSome || Pattern.isWellFormed s

/-- A field by name, maybe with a value between an equals sign and the next. -/
def isField (s : List Char) : Bool :=
  !s.isEmpty &&
    match Text.cutAt? '=' s with
    | none => true
    | some (_, rest) => isFieldValue (rest.takeWhile (· != '='))

/-! ## Directives -/

/-- Gives the text that stands for a rest of a directive, if there is one. -/
abbrev Shift : Type := List Char → Option (List Char)

/-- What may follow a target or a span: nothing, or an equals sign and a level. -/
def levelFollows (shift : Shift) : List Char → Bool
  | [] => true
  | '=' :: level => (shift level).any isLevel
  | _ => false

/-- The text that stands for the front of a rest of a directive. -/
def shiftFront (shift : Shift) (front rest : List Char) : Option (List Char) := do
  let s ← shift rest
  let (part, _) ← Text.cutBytes? (Text.byteLength front) s
  pure part

/-- The rest of a span after its opening bracket, and what may follow it. -/
def spanFollows (shift : Shift) (s : List Char) : Bool :=
  let outside c := c != ']' && c != '{'
  (shiftFront shift (s.takeWhile outside) s).isSome &&
    match s.dropWhile outside with
    | ']' :: rest => levelFollows shift rest
    | '{' :: rest =>
      (shiftFront shift (rest.takeWhile (· != '}')) rest).any isField &&
        match rest.dropWhile (· != '}') with
        | '}' :: ']' :: last => levelFollows shift last
        | _ => false
    | _ => false

/-- A character that a target may begin with. -/
def isTargetStart (c : Char) : Bool := c = '-' || c = ':' || c = '_' || Text.isAlphanumeric c

/-- A rest of the directive without the blanks around it stands for what is as many bytes behind
the start of the directive itself. -/
def shiftOf (directive : List Char) : Shift := fun rest ↦
  (Text.cutBytes? (Text.byteLength (Text.trim directive) - Text.byteLength rest) directive).map
    Prod.snd

/-- The directive can be followed. Its parts are found without the blanks around it, but read with
them, at the same distance from the start. -/
def accepts (directive : List Char) : Bool :=
  let s := Text.trim directive
  let shift := shiftOf directive
  match s with
  | [] => false
  | '[' :: rest => spanFollows shift rest
  | c :: _ =>
    isTargetStart c &&
      match s.dropWhile fun c ↦ c != '=' && c != '[' with
      | [] => true
      | '[' :: rest => (shift ('[' :: rest)).isSome && spanFollows shift rest
      | rest => (shift rest).isSome && levelFollows shift rest

/-- The directives that are not empty can be followed. -/
def isValid (text : String) : Bool :=
  (Text.splitAt ',' text.toList).all fun s ↦ s.isEmpty || accepts s

end SensorQuery.LogFilter
