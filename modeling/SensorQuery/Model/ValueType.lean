/-!
# Value types

The types of the values that entities hold. An open value has no declared structure, so any path
below it is accepted; a complex type has named fields and may be open to others.
-/

namespace SensorQuery

/-- The type of a property's value. -/
inductive ValueType where
  | id
  | string
  | integer
  | double
  | boolean
  | dateTime
  | timeInstant
  | timeInterval
  /-- An instant or an interval. -/
  | timeValue
  | geometry
  /-- An object without declared structure. -/
  | object
  /-- A value of any shape. -/
  | any
  /-- A complex type by its name. -/
  | complex (name : String)
  | list (element : ValueType)
deriving DecidableEq

namespace ValueType

/-- Values of the type have no declared structure. -/
def isOpen : ValueType → Bool
  | .object => true
  | .any => true
  | _ => false

/-- An index may follow a value of the type. -/
def acceptsIndex : ValueType → Bool
  | .list _ => true
  | type => type.isOpen

/-- The type of the innermost elements of nested lists. -/
def innermost : ValueType → ValueType
  | .list element => element.innermost
  | type => type

/-- The name of the type in messages. -/
def name : ValueType → String
  | .id => "Id"
  | .string => "String"
  | .integer => "Integer"
  | .double => "Double"
  | .boolean => "Boolean"
  | .dateTime => "DateTime"
  | .timeInstant => "TimeInstant"
  | .timeInterval => "TimeInterval"
  | .timeValue => "TimeValue"
  | .geometry => "Geometry"
  | .object => "Object"
  | .any => "Any"
  | .complex name => name
  | .list element => "List<" ++ element.name ++ ">"

end ValueType

/-- A type of values with named fields. -/
structure ComplexType where
  name : String
  /-- The fields, each name once. -/
  fields : List (String × ValueType)
  /-- Fields that are not declared are accepted too. -/
  isOpen : Bool
deriving DecidableEq

namespace ComplexType

/-- The fields with one more, which replaces a field of the same name. -/
def withField (fields : List (String × ValueType)) (field : String × ValueType) :
    List (String × ValueType) :=
  if fields.any (·.1 = field.1) then
    fields.map fun other ↦ if other.1 = field.1 then field else other
  else fields ++ [field]

/-- A complex type with these fields; of two fields of one name the later counts. -/
def ofFields (name : String) (fields : List (String × ValueType)) (isOpen : Bool) :
    ComplexType where
  name
  fields := fields.foldl withField []
  isOpen

/-- The type of the field with the name. -/
def field? (c : ComplexType) (name : String) : Option ValueType :=
  (c.fields.find? (·.1 = name)).map Prod.snd

end ComplexType

end SensorQuery
