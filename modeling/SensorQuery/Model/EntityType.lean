import SensorQuery.Model.Key
import SensorQuery.Model.NameTable
import SensorQuery.Model.ValueType

/-!
# Entity types

An entity type has a name, the name of its entity set, a key and properties. An entity property
holds a value; a navigation property leads to entities of a target type, where its inverse leads
back. Entity types refer to one another by their ids, and an index finds the properties of a type by
their names.
-/

namespace SensorQuery

/-- A property that holds a value. -/
structure EntityProperty where
  name : String
  valueType : ValueType
  required : Bool
deriving DecidableEq

/-- A property that leads to entities of another type. -/
structure NavigationProperty where
  name : String
  /-- The id of the type that it leads to. -/
  target : Nat
  /-- It leads to a set of entities and not to one. -/
  toMany : Bool
  /-- The name of the property of the target that leads back. -/
  inverse : String
  required : Bool
deriving DecidableEq

/-- A property of either sort. -/
inductive Property where
  | entity (p : EntityProperty)
  | navigation (n : NavigationProperty)
deriving DecidableEq

namespace Property

/-- The name of the property. -/
def name : Property → String
  | .entity p => p.name
  | .navigation n => n.name

/-- The property, if it holds a value. -/
def entity? : Property → Option EntityProperty
  | .entity p => some p
  | .navigation _ => none

/-- The property, if it leads to entities. -/
def navigation? : Property → Option NavigationProperty
  | .entity _ => none
  | .navigation n => some n

end Property

/-- A type of entities. -/
structure EntityType where
  /-- The position of the type in its model. -/
  id : Nat
  name : String
  /-- The name of the entity set. -/
  plural : String
  /-- The name of the key property. -/
  primaryKey : String
  keyKind : KeyKind
  /-- The properties in the order of their declaration, the key first. -/
  properties : List Property
  /-- The positions of the properties by name. -/
  index : NameTable
  indexed : index.Finds (properties.map Property.name)
deriving DecidableEq

namespace EntityType

/-- A type without properties. -/
def bare (id : Nat) (name plural primaryKey : String) (keyKind : KeyKind) : EntityType where
  id := id
  name := name
  plural := plural
  primaryKey := primaryKey
  keyKind := keyKind
  properties := []
  index := .empty
  indexed := .empty

/-- Whether the type has a property with the name. -/
def hasProperty (t : EntityType) (name : String) : Bool := t.index.contains name

/-- The type with one more property behind the others. -/
def push (t : EntityType) (p : Property) : EntityType where
  id := t.id
  name := t.name
  plural := t.plural
  primaryKey := t.primaryKey
  keyKind := t.keyKind
  properties := t.properties ++ [p]
  index := t.index.insert p.name t.properties.length
  indexed := by simpa using t.indexed.insert p.name

/-- The property with the name. -/
def property? (t : EntityType) (name : String) : Option Property :=
  t.index.find? t.properties name

/-- The entity property with the name. -/
def entityProperty? (t : EntityType) (name : String) : Option EntityProperty :=
  (t.property? name).bind Property.entity?

/-- The navigation property with the name. -/
def navigationProperty? (t : EntityType) (name : String) : Option NavigationProperty :=
  (t.property? name).bind Property.navigation?

/-- The entity properties in order. -/
def entityProperties (t : EntityType) : List EntityProperty :=
  t.properties.filterMap Property.entity?

/-- The navigation properties in order. -/
def navigationProperties (t : EntityType) : List NavigationProperty :=
  t.properties.filterMap Property.navigation?

end EntityType

end SensorQuery
