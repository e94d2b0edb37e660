import SensorQuery.Path.Element
import SensorQuery.Path.Segment

/-!
# Resolving paths

The segments of a path are resolved one by one against a model. What a segment means depends on the
place reached so far: the root, a set, an entity, a value of a declared type, or a value without
declared structure.
-/

namespace SensorQuery

/-- Why a text is no resource path of a model. -/
inductive PathError where
  | empty
  /-- The path is not cut into segments. The account of where and of what was expected there, which
  belongs to this error, is left out. -/
  | malformed (path : String)
  | unknownVersion (text : String)
  | unknownEntitySet (name : String)
  | unknownProperty (owner property : String)
  | invalidKey (entityType : String) (source : KeyError)
  | keyNotAllowed (segment : String)
  | unexpectedSegment (segment reason : String)
  | misplacedSuffix (suffix : Suffix) (reason : String)
deriving DecidableEq

/-- The wording of the error; of a malformed path it says no more than that. -/
def PathError.message : PathError → String
  | .empty => "the resource path is empty"
  | .malformed path => s!"malformed resource path '{path}'"
  | .unknownVersion text => s!"unknown protocol version '{text}'"
  | .unknownEntitySet name => s!"no entity set named {name}"
  | .unknownProperty owner property => s!"{owner} has no property {property}"
  | .invalidKey entityType source => s!"invalid key for {entityType}: {source.message}"
  | .keyNotAllowed segment => s!"segment {segment} does not accept a key"
  | .unexpectedSegment segment reason => s!"unexpected segment {segment}: {reason}"
  | .misplacedSuffix suffix reason => s!"misplaced {suffix.text}: {reason}"

/-- The version with the text. -/
def Version.parse (text : String) : Except PathError Version :=
  if text = "v1.0" then .ok .v1_0
  else if text = "v1.1" then .ok .v1_1
  else .error (.unknownVersion text)

/-- The suffix with the name. -/
def Suffix.ofName? (name : String) : Option Suffix :=
  if name = Suffix.reference.text then some .reference
  else if name = Suffix.value.text then some .value
  else none

/-- What the next segment is resolved against. -/
inductive Place where
  | root
  /-- A set of entities, none of which is chosen. -/
  | set (t : EntityType)
  | entity (t : EntityType)
  | value (type : ValueType)
  /-- A value without declared structure. -/
  | anything
deriving DecidableEq

/-- The place of a value of the type. -/
def Place.ofValue (type : ValueType) : Place := if type.isOpen then .anything else .value type

/-- The elements found so far, and the place they lead to. -/
structure Resolution where
  elements : List PathElement
  place : Place
deriving DecidableEq

namespace Resolution

/-- Nothing is resolved. -/
def start : Resolution := ⟨[], .root⟩

/-- The position of the last element. -/
def parent (r : Resolution) : Nat := r.elements.length - 1

/-- The resolution with one more element, and the place that it leads to. -/
def push (r : Resolution) (e : PathElement) (place : Place) : Resolution :=
  ⟨r.elements ++ [e], place⟩

/-- Enters a set that was just reached: with a key to one entity, and without to the set itself. -/
def enterSet (r : Resolution) (t : EntityType) : Option String → Except PathError Resolution
  | none => .ok { r with place := .set t }
  | some key =>
    match t.keyKind.parse key with
    | .ok k => .ok (r.push (.entity t.name (some k) none (some r.parent)) (.entity t))
    | .error e => .error (.invalidKey t.name e)

/-- A segment without a key. -/
def noKey (s : Segment) : Except PathError Unit :=
  if s.key.isSome then .error (.keyNotAllowed s.name) else .ok ()

/-- Resolves a segment against the root. -/
def rootStep (model : Registry) (r : Resolution) (s : Segment) : Except PathError Resolution :=
  match model.entitySet? s.name with
  | none => .error (.unknownEntitySet s.name)
  | some t => (r.push (.entitySet t.name t.plural none none) (.set t)).enterSet t s.key

/-- Resolves a segment against an entity. A navigation property without its target counts as
unknown. -/
def entityStep (model : Registry) (r : Resolution) (t : EntityType) (s : Segment) :
    Except PathError Resolution :=
  match t.property? s.name with
  | some (.entity p) => do
    noKey s
    pure (r.push (.property p.name r.parent) (.ofValue p.valueType))
  | some (.navigation n) =>
    match model.target? n with
    | some target =>
      if n.toMany then
        (r.push (.entitySet target.name target.plural (some n.name) (some r.parent))
          (.set target)).enterSet target s.key
      else do
        noKey s
        pure (r.push (.entity target.name none (some n.name) (some r.parent)) (.entity target))
    | none => .error (.unknownProperty t.name s.name)
  | none => .error (.unknownProperty t.name s.name)

/-- The number that a name of digits denotes. -/
def indexOfName? (name : String) : Option UInt64 :=
  (Segment.scanNumber (ε := Empty)).whole? name.toList

/-- Adds an index to a list or to a value without declared structure. -/
def pushIndex (segment : String) (r : Resolution) (i : UInt64) : Except PathError Resolution :=
  match r.place with
  | .anything => .ok (r.push (.index i r.parent) .anything)
  | .value (.list element) => .ok (r.push (.index i r.parent) (.ofValue element))
  | _ => .error (.unexpectedSegment segment "only list and open properties accept an index")

/-- Resolves a name against a value of a declared type. -/
def valueStep (model : Registry) (r : Resolution) (type : ValueType) (name : String) :
    Except PathError Resolution :=
  match type with
  | .list _ =>
    match indexOfName? name with
    | some i => r.pushIndex name i
    | none => .error (.unexpectedSegment name "list values are addressed by index")
  | .complex complexName =>
    match model.complexType? complexName with
    | none => .error (.unknownProperty complexName name)
    | some c =>
      match c.field? name with
      | some field => .ok (r.push (.custom name r.parent) (.ofValue field))
      | none =>
        if c.isOpen then .ok (r.push (.custom name r.parent) .anything)
        else .error (.unknownProperty c.name name)
  | _ => .error (.unexpectedSegment name "the preceding property has no sub-properties")

/-- Resolves a name against a value without declared structure; digits are an index. -/
def anythingStep (r : Resolution) (name : String) : Resolution :=
  match indexOfName? name with
  | some i => r.push (.index i r.parent) .anything
  | none => r.push (.custom name r.parent) .anything

/-- Resolves the name and the key of a segment. -/
def nameStep (model : Registry) (r : Resolution) (s : Segment) : Except PathError Resolution :=
  match r.place with
  | .root => rootStep model r s
  | .set t =>
    .error (.unexpectedSegment s.name s!"the {t.plural} collection must be keyed first")
  | .entity t => entityStep model r t s
  | .value type => do
    noKey s
    valueStep model r type s.name
  | .anything => do
    noKey s
    pure (r.anythingStep s.name)

/-- Resolves a segment: first its name and key, then its indices in order. -/
def step (model : Registry) (r : Resolution) (s : Segment) : Except PathError Resolution := do
  let named ← r.nameStep model s
  s.indices.foldlM (pushIndex s.name) named

/-- A suffix stands alone at the end, `$ref` after entities and sets, `$value` after properties. -/
def checkSuffix (r : Resolution) (s : Segment) (isLast : Bool) (suffix : Suffix) :
    Except PathError Unit :=
  let misplaced (reason : String) : Except PathError Unit := .error (.misplacedSuffix suffix reason)
  if !isLast then misplaced "it must be the final segment"
  else if s.key.isSome || !s.indices.isEmpty then misplaced "it takes no key or index"
  else
    match r.elements.getLast?, suffix with
    | none, _ => misplaced "it needs a preceding resource"
    | some e, .reference =>
      if e.isResource then .ok () else misplaced "it only applies to entities and entity sets"
    | some e, .value =>
      if e.isResource then misplaced "it only applies to properties" else .ok ()

/-- Resolves segments in order, up to a suffix at the end. -/
def steps (model : Registry) (r : Resolution) :
    List Segment → Except PathError (Resolution × Option Suffix)
  | [] => .ok (r, none)
  | s :: rest =>
    match Suffix.ofName? s.name with
    | some suffix => do
      r.checkSuffix s rest.isEmpty suffix
      pure (r, some suffix)
    | none => do
      let next ← r.step model s
      next.steps model rest

end Resolution

namespace ResourcePath

/-- The path that the text denotes in a model, below a service root. -/
def parse (model : Registry) (serviceRoot : String) (version : Version) (raw : String) :
    Except PathError ResourcePath :=
  if raw = "" ∨ raw = "/" then .error .empty
  else
    match Segment.ofPath? raw with
    | none => .error (.malformed raw)
    | some segments => do
      let (r, suffix) ← Resolution.start.steps model segments
      pure (ofElements r.elements suffix serviceRoot version raw)

end ResourcePath

end SensorQuery
