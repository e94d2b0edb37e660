import SensorQuery.Number.Numeral
import SensorQuery.Query.Context
import SensorQuery.Query.Error
import SensorQuery.Text.Letter
import SensorQuery.Text.Split

/-!
# Property paths

A property path leads from an entity to one of its values or to other entities, by names with
slashes between them and indices. Names are sorted by what any type of the model declares, before
it is known which type the path starts from.
-/

namespace SensorQuery

/-- A step of a property path. -/
inductive PathStep where
  | navigation (name : String)
  | property (name : String)
  /-- The alias of the key. -/
  | primaryKey
  /-- A part of a value by a name that the model need not declare. -/
  | custom (name : String)
  | index (i : UInt64)
  /-- A part of a value that is a link to an entity of the target type. -/
  | customLink (name target : String)
deriving DecidableEq

namespace PathStep

/-- The alias of the key in texts. -/
def keyAlias : String := "@iot.id"

/-- The step in messages. -/
def text : PathStep → List Char
  | .navigation name => name.toList
  | .property name => name.toList
  | .primaryKey => keyAlias.toList
  | .custom name => name.toList
  | .index i => Nat.toDigits 10 i.toNat
  | .customLink name target => name.toList ++ '.' :: target.toList

/-- The step leads to an entity. -/
def isHop : PathStep → Bool
  | .navigation _ => true
  | .customLink _ _ => true
  | _ => false

/-- The step inside a path: an index in brackets, a name after a slash. -/
def innerText : PathStep → List Char
  | .index i => '[' :: text (.index i) ++ [']']
  | step => '/' :: step.text

end PathStep

/-- A path to a value or to entities. -/
structure PropertyPath where
  steps : List PathStep
deriving DecidableEq

namespace PropertyPath

/-- The path has no step. -/
def isEmpty (p : PropertyPath) : Bool := p.steps.isEmpty

/-- The path as a filter writes it. -/
def text (p : PropertyPath) : List Char :=
  match p.steps with
  | [] => []
  | .index i :: steps => (PathStep.index i).innerText ++ steps.flatMap PathStep.innerText
  | step :: steps => step.text ++ steps.flatMap PathStep.innerText

/-- The steps cut behind each that leads to an entity. -/
def hopsOf : List PathStep → List (List PathStep)
  | [] => []
  | step :: steps =>
    if step.isHop then [step] :: hopsOf steps
    else
      match hopsOf steps with
      | [] => [[step]]
      | hop :: hops => (step :: hop) :: hops

/-- The path cut behind each step that leads to an entity. -/
def hops (p : PropertyPath) : List PropertyPath := (hopsOf p.steps).map PropertyPath.mk

end PropertyPath

/-- A step as it is written, before its name is sorted. -/
inductive RawStep where
  | name (text : String)
  | index (i : UInt64)
deriving DecidableEq

namespace RawStep

/-- A character of a name. -/
def isNameChar (c : Char) : Bool := Text.isAlphanumeric c || c == '_' || c == '.'

/-- A character at the front of a path. -/
def isFirstChar (c : Char) : Bool := Text.isAlphabetic c || c == '_' || c == '@'

/-- The step of a name; one of digits alone is an index if it is below `2 ^ 64`. -/
def ofName (name : List Char) : RawStep :=
  if name.all Char.isDigit then
    match Numeral.uint64? name with
    | some i => .index i
    | none => .name (String.ofList name)
  else .name (String.ofList name)

/-- Reads a name or the alias of the key. -/
def scanName {ε : Type} : Scanner ε (List Char) :=
  Scanner.orElse
    (do
      Scanner.exactly PathStep.keyAlias.toList
      pure PathStep.keyAlias.toList)
    (Scanner.run1 isNameChar)

/-- Reads an index in brackets. -/
def scanIndex {ε : Type} : Scanner ε RawStep := do
  Scanner.char '['
  let digits ← Scanner.digits
  let i ← Scanner.ofOption (Numeral.uint64? digits)
  Scanner.char ']'
  pure (.index i)

/-- Reads a name and the indices behind it. -/
def scanNamed {ε : Type} : Scanner ε (List RawStep) := do
  let name ← scanName
  let indices ← Scanner.many scanIndex
  pure (ofName name :: indices)

/-- Reads the steps of a path, whose first begins as a name. -/
def scanPath {ε : Type} : Scanner ε (List RawStep) := do
  let name ← scanName
  if (name.head?.map isFirstChar).getD false then
    let indices ← Scanner.many scanIndex
    let others ← Scanner.many do
      Scanner.char '/'
      scanNamed
    pure (ofName name :: indices ++ others.flatten)
  else Scanner.miss

/-- The text of the step in messages. -/
def text : RawStep → String
  | .name word => word
  | .index i => toString i.toNat

end RawStep

namespace PropertyPath

/-- What a step is read against. -/
inductive Position where
  | entity
  | value
  /-- Behind the alias of the key. -/
  | key
deriving DecidableEq

/-- The link and the target type of a name `link.Type`. -/
def customLink? (model : Registry) (name : String) : Option (String × String) :=
  match Text.cutAtLast? '.' name.toList with
  | none => none
  | some (link, target) =>
    if link.isEmpty || (model.entityType? (String.ofList target)).isNone then none
    else some (String.ofList link, String.ofList target)

/-- Sorts a name that is read against an entity. -/
def stepOfEntity (ctx : Context) (name : String) : Except ExpressionError (PathStep × Position) :=
  if name = PathStep.keyAlias then .ok (.primaryKey, .key)
  else if ctx.model.isNavigationName name then .ok (.navigation name, .entity)
  else if ctx.model.isEntityPropertyName name then .ok (.property name, .value)
  else .error (.unknownProperty name)

/-- Sorts a name that is read against a value. -/
def stepOfValue (ctx : Context) (name : String) : PathStep × Position :=
  match if ctx.customLinks then customLink? ctx.model name else none with
  | some (link, target) => (.customLink link target, .entity)
  | none => (.custom name, .value)

/-- Sorts a step, and says what the next is read against. -/
def classifyStep (ctx : Context) :
    Position → RawStep → Except ExpressionError (PathStep × Position)
  | .entity, .name name => stepOfEntity ctx name
  | .entity, .index i =>
    .error (.invalidPath (RawStep.index i).text "an index must follow a property")
  | .value, .name name => .ok (stepOfValue ctx name)
  | .value, .index i => .ok (.index i, .value)
  | .key, step => .error (.invalidPath step.text "the primary key has no sub-properties")

/-- Sorts steps in order. -/
def classify (ctx : Context) : Position → List RawStep → Except ExpressionError (List PathStep)
  | _, [] => .ok []
  | position, raw :: raws => do
    let (step, next) ← classifyStep ctx position raw
    let steps ← classify ctx next raws
    pure (step :: steps)

/-- Reads a property path. One whose names are not those of the model is refused. -/
def scan (ctx : Context) : Scanner ExpressionError PropertyPath := do
  let raws ← RawStep.scanPath
  let steps ← Scanner.ofExcept (classify ctx .entity raws)
  pure ⟨steps⟩

/-- The property path that the whole text denotes. -/
def parse (ctx : Context) (text : String) : Except ExpressionError PropertyPath :=
  (scan ctx).entire text

end PropertyPath

end SensorQuery
