import SensorQuery.Model.Registry

/-!
# Building a model

A model is declared step by step: entity types, further properties of types that may be declared
elsewhere, complex types, and links, which are pairs of navigation properties. An extension is a
named list of declarations and may apply further extensions. `Builder.finalize` checks that the
declarations fit together and gives the registry.
-/

namespace SensorQuery

/-- An entity type as it is declared. -/
structure EntityDeclaration where
  name : String
  plural : String
  primaryKey : String
  keyKind : KeyKind
  /-- The properties besides the key. -/
  properties : List EntityProperty
deriving DecidableEq

/-- One side of a link: a navigation property of a type that leads to the other side. -/
structure LinkEnd where
  entityType : String
  property : String
  many : Bool
  required : Bool
deriving DecidableEq

/-- A navigation property and its inverse. -/
structure Link where
  source : LinkEnd
  target : LinkEnd
deriving DecidableEq

/-- Why declarations make no model. -/
inductive ModelError where
  | duplicateEntityType (name : String)
  | duplicateEntitySet (plural : String)
  | duplicateComplexType (name : String)
  | duplicateProperty (entityType property : String)
  | unknownEntityType (name : String)
  | unknownComplexType (owner property complexType : String)
  | duplicateExtension (name : String)
deriving DecidableEq

/-- The wording of the error. -/
def ModelError.message : ModelError → String
  | .duplicateEntityType name => s!"entity type {name} is already registered"
  | .duplicateEntitySet plural => s!"entity set {plural} is already registered"
  | .duplicateComplexType name => s!"complex type {name} is already registered"
  | .duplicateProperty entityType property =>
    s!"entity type {entityType} already has a property named {property}"
  | .unknownEntityType name => s!"entity type {name} is not registered"
  | .unknownComplexType owner property complexType =>
    s!"property {property} of {owner} refers to unregistered complex type {complexType}"
  | .duplicateExtension name => s!"plugin {name} was already applied"

/-- A step in the declaration of a model. -/
inductive Declaration where
  | entityType (d : EntityDeclaration)
  /-- A property of a type that may be declared elsewhere. -/
  | property (owner : String) (p : EntityProperty)
  | complexType (c : ComplexType)
  | link (l : Link)
  /-- A named extension, which is applied once. -/
  | extend (name : String) (steps : List Declaration)

/-- The declarations so far, each sort in order. -/
structure Builder where
  types : List EntityDeclaration
  properties : List (String × EntityProperty)
  complexTypes : List ComplexType
  links : List Link
  /-- The names of the extensions whose declarations are complete. -/
  extensions : List String
deriving DecidableEq

namespace Builder

/-- Nothing is declared. -/
def empty : Builder := ⟨[], [], [], [], []⟩

/-- Adds an entity type whose name and set name are new. -/
def addEntityType (b : Builder) (d : EntityDeclaration) : Except ModelError Builder :=
  if b.types.any (·.name = d.name) then .error (.duplicateEntityType d.name)
  else if b.types.any (·.plural = d.plural) then .error (.duplicateEntitySet d.plural)
  else .ok { b with types := b.types ++ [d] }

/-- Adds a complex type whose name is new. -/
def addComplexType (b : Builder) (c : ComplexType) : Except ModelError Builder :=
  if b.complexTypes.any (·.name = c.name) then .error (.duplicateComplexType c.name)
  else .ok { b with complexTypes := b.complexTypes ++ [c] }

/-- The builder after a step that fails or not; a step that fails adds nothing. -/
def attempt (b : Builder) : Except ModelError Builder → Builder × Option ModelError
  | .ok more => (more, none)
  | .error e => (b, some e)

mutual

/-- The builder after a step, with the error that ended it. An extension that fails leaves behind
what it declared before, and its name is recorded only when all its steps are done. -/
def declare (b : Builder) : Declaration → Builder × Option ModelError
  | .entityType d => b.attempt (b.addEntityType d)
  | .property owner p => ({ b with properties := b.properties ++ [(owner, p)] }, none)
  | .complexType c => b.attempt (b.addComplexType c)
  | .link l => ({ b with links := b.links ++ [l] }, none)
  | .extend name steps =>
    if b.extensions.contains name then (b, some (.duplicateExtension name))
    else
      match declareAll b steps with
      | (more, none) => ({ more with extensions := more.extensions ++ [name] }, none)
      | (more, some e) => (more, some e)

/-- The builder after steps in order, up to the first that fails. -/
def declareAll (b : Builder) : List Declaration → Builder × Option ModelError
  | [] => (b, none)
  | step :: steps =>
    match declare b step with
    | (more, none) => declareAll more steps
    | (more, some e) => (more, some e)

end

/-- The name is new to the type. -/
def checkNew (t : EntityType) (name : String) : Except ModelError Unit :=
  if t.hasProperty name then .error (.duplicateProperty t.name name) else .ok ()

/-- The entity type with one more property, whose name must be new to it. -/
def withProperty (t : EntityType) (p : Property) : Except ModelError EntityType := do
  checkNew t p.name
  pure (t.push p)

/-- The entity type of a declaration, with its key and its own properties. -/
def entityTypeOf (id : Nat) (d : EntityDeclaration) : Except ModelError EntityType :=
  let key : EntityProperty := ⟨d.primaryKey, .id, false⟩
  (key :: d.properties).foldlM (fun t p ↦ withProperty t (.entity p))
    (.bare id d.name d.plural d.primaryKey d.keyKind)

/-- The table with the type of one more declaration, whose id is the next. -/
def register (table : EntityTable) (d : EntityDeclaration) : Except ModelError EntityTable := do
  let t ← entityTypeOf table.types.length d
  pure (table.insert t)

/-- The id of the entity type with the name. -/
def idOf (table : EntityTable) (name : String) : Except ModelError Nat :=
  match table.byName.get? name with
  | some id => .ok id
  | none => .error (.unknownEntityType name)

/-- The table with one more property on the type with the id, to which its name must be new. Every
id that the table gives is that of a type. -/
def addProperty (table : EntityTable) (id : Nat) (p : Property) : Except ModelError EntityTable :=
  match table.types[id]? with
  | some t => do
    checkNew t p.name
    pure (table.push id p)
  | none => .ok table

/-- The table with one more property on the type of the name. -/
def addOwned (table : EntityTable) (owner : String) (p : Property) :
    Except ModelError EntityTable := do
  let id ← idOf table owner
  addProperty table id p

/-- The navigation property on one side of a link, which leads to the type with the id. -/
def navigation (here there : LinkEnd) (target : Nat) : NavigationProperty where
  name := here.property
  target := target
  toMany := here.many
  inverse := there.property
  required := here.required

/-- The table with the two properties of a link. A link of a type to itself under one name is its
own inverse, and so one property. -/
def addLink (table : EntityTable) (l : Link) : Except ModelError EntityTable := do
  let source ← idOf table l.source.entityType
  let target ← idOf table l.target.entityType
  let more ← addProperty table source (.navigation (navigation l.source l.target target))
  if source = target ∧ l.source.property = l.target.property then pure more
  else addProperty more target (.navigation (navigation l.target l.source source))

/-- The innermost type of the property is registered, if it is complex. -/
def checkComplex (complexTypes : List ComplexType) (owner : String) (p : EntityProperty) :
    Except ModelError Unit :=
  match p.valueType.innermost with
  | .complex name =>
    if complexTypes.any (·.name = name) then .ok ()
    else .error (.unknownComplexType owner p.name name)
  | _ => .ok ()

/-- The registry of the declarations. Entity types come first with their own properties, then the
properties added to them, then the links, then the complex types that they refer to are looked for,
and last the names of their properties are recorded. -/
def finalize (b : Builder) : Except ModelError Registry := do
  let table ← b.types.foldlM register .empty
  let table ← b.properties.foldlM (fun table p ↦ addOwned table p.1 (.entity p.2)) table
  let table ← b.links.foldlM addLink table
  table.types.forM fun t ↦ t.entityProperties.forM (checkComplex b.complexTypes t.name)
  pure (.ofTable table b.complexTypes b.extensions)

/-- The registry of declarations in order. -/
def build (steps : List Declaration) : Except ModelError Registry :=
  match declareAll empty steps with
  | (b, none) => b.finalize
  | (_, some e) => .error e

end Builder

end SensorQuery
