import SensorQuery.Model.Registry

/-!
# Resource paths

A resource path is a chain of elements from an entity set at the root to the resource that is
addressed. Each element but the first knows its parent, the element before it. The main element is
the last entity or entity set. A keyed entity is unique on its own, so `compress` drops what leads
to the set that holds the last one.
-/

namespace SensorQuery

/-- The versions of the protocol. -/
inductive Version where
  | v1_0
  | v1_1
deriving DecidableEq

/-- The version as it stands in a URL. -/
def Version.text : Version → String
  | .v1_0 => "v1.0"
  | .v1_1 => "v1.1"

/-- What the last segment asks for beyond the resource itself. -/
inductive Suffix where
  /-- References to the entities, without their content. -/
  | reference
  /-- The bare value of the property. -/
  | value
deriving DecidableEq

/-- The suffix as a segment. -/
def Suffix.text : Suffix → String
  | .reference => "$ref"
  | .value => "$value"

/-- An element of a path; entity types are given by name, parents by position. -/
inductive PathElement where
  /-- A set of entities, reached at the root or through a navigation property. -/
  | entitySet (entityType plural : String) (navigation : Option String) (parent : Option Nat)
  /-- An entity, by its key or through a navigation property that leads to one. -/
  | entity (entityType : String) (key : Option Key) (navigation : Option String)
    (parent : Option Nat)
  | property (name : String) (parent : Nat)
  /-- A part of a property's value, by name. -/
  | custom (name : String) (parent : Nat)
  /-- A part of a property's value, by index. -/
  | index (index : UInt64) (parent : Nat)
deriving DecidableEq

namespace PathElement

/-- The position of the parent; the first element has none. -/
def parent? : PathElement → Option Nat
  | .entitySet _ _ _ parent => parent
  | .entity _ _ _ parent => parent
  | .property _ parent => some parent
  | .custom _ parent => some parent
  | .index _ parent => some parent

/-- The name of the entity type of an entity or an entity set. -/
def entityType? : PathElement → Option String
  | .entitySet entityType _ _ _ => some entityType
  | .entity entityType _ _ _ => some entityType
  | _ => none

/-- The element is an entity or an entity set. -/
def isResource (e : PathElement) : Bool := e.entityType?.isSome

/-- The element is an entity set. -/
def isEntitySet : PathElement → Bool
  | .entitySet .. => true
  | _ => false

/-- The element is an entity with its key. -/
def isKeyed : PathElement → Bool
  | .entity _ (some _) _ _ => true
  | _ => false

/-- The element when `offset` elements in front of it are dropped. -/
def shiftParent (offset : Nat) : PathElement → PathElement
  | .entitySet entityType plural navigation parent =>
    .entitySet entityType plural navigation (parent.map (· - offset))
  | .entity entityType key navigation parent =>
    .entity entityType key navigation (parent.map (· - offset))
  | .property name parent => .property name (parent - offset)
  | .custom name parent => .custom name (parent - offset)
  | .index i parent => .index i (parent - offset)

/-- An entity set without what led to it; other elements as they are. -/
def atRoot : PathElement → PathElement
  | .entitySet entityType plural _ _ => .entitySet entityType plural none none
  | e => e

/-- A key in parentheses. -/
def keyText (key : Key) : List Char := '(' :: key.text ++ [')']

/-- The part of the path's text that the element writes. -/
def text : PathElement → List Char
  | .entitySet _ plural navigation _ => '/' :: (navigation.getD plural).toList
  | .entity _ (some key) none _ => keyText key
  | .entity _ key navigation _ =>
    '/' :: (navigation.getD "").toList ++ ((key.map keyText).getD [])
  | .property name _ => '/' :: name.toList
  | .custom name _ => '/' :: name.toList
  | .index i _ => '[' :: Nat.toDigits 10 i.toNat ++ [']']

end PathElement

/-- A resource path with the place it was read from. -/
structure ResourcePath where
  elements : List PathElement
  /-- The position of the main element. -/
  main : Nat
  /-- The name of the main element's entity type. -/
  mainType : String
  suffix : Option Suffix
  serviceRoot : String
  version : Version
  raw : String
deriving DecidableEq

namespace ResourcePath

/-- The paths have the same elements, the same main element and the same suffix. -/
def same (p q : ResourcePath) : Bool :=
  p.elements = q.elements && p.main = q.main && p.suffix = q.suffix

/-- The position of the last element of a sort. -/
def lastIndex? (sort : PathElement → Bool) : List PathElement → Option Nat
  | [] => none
  | e :: es => ((lastIndex? sort es).map (· + 1)).orElse fun _ ↦ if sort e then some 0 else none

/-- The path of these elements. -/
def ofElements (elements : List PathElement) (suffix : Option Suffix) (serviceRoot : String)
    (version : Version) (raw : String) : ResourcePath :=
  let main := (lastIndex? PathElement.isResource elements).getD 0
  { elements
    main
    mainType := (elements[main]?.bind PathElement.entityType?).getD ""
    suffix
    serviceRoot
    version
    raw }

/-- The main element. -/
def mainElement? (p : ResourcePath) : Option PathElement := p.elements[p.main]?

/-- The main element is the last. -/
def mainIsLast (p : ResourcePath) : Bool := p.main + 1 = p.elements.length

/-- The path addresses the entities of a set. -/
def isCollection (p : ResourcePath) : Bool :=
  (p.mainElement?.map PathElement.isEntitySet).getD false && p.mainIsLast

/-- The position of the last entity that is addressed by its key. -/
def identified? (p : ResourcePath) : Option Nat := lastIndex? PathElement.isKeyed p.elements

/-- The path from the element at `start` on, as a path of its own. -/
def dropBefore (start : Nat) (p : ResourcePath) : ResourcePath :=
  match p.elements.drop start with
  | [] => p
  | e :: es =>
    { p with
      elements := e.atRoot :: es.map (PathElement.shiftParent start)
      main := p.main - start }

/-- The path from the set that holds the last keyed entity, if there is one. -/
def compress (p : ResourcePath) : ResourcePath :=
  match p.identified?.bind fun i ↦ p.elements[i]?.bind PathElement.parent? with
  | none => p
  | some 0 => p
  | some start => p.dropBefore start

/-- The path without the service root. -/
def text (p : ResourcePath) : List Char :=
  p.elements.flatMap PathElement.text ++
    ((p.suffix.map fun s ↦ '/' :: s.text.toList).getD [])

end ResourcePath

end SensorQuery
