import SensorQuery.Query.Query

/-!
# Validation

Checks the paths of a query against the entity type that it is asked of: filters and orders must
end at values, selections must resolve, and expansions must end at entities, of whose type their
own queries are then asked.
-/

namespace SensorQuery

/-- Why a query cannot be asked of an entity type. -/
inductive ValidationError where
  | unknownProperty (owner property : String)
  | unknownNavigation (entityType navigation : String)
  | closedProperty (valueType segment : String)
  | notAProperty (entityType segment : String)
  | unknownLinkTarget (target : String)
  | endsAtEntity (option path : String)
  | notExpandable (path : String)
  | unreachable (parent root : String)
deriving DecidableEq

/-- The wording of the error. -/
def ValidationError.message : ValidationError → String
  | .unknownProperty owner property => s!"{owner} has no property {property}"
  | .unknownNavigation entityType navigation =>
    s!"{entityType} has no navigation property {navigation}"
  | .closedProperty valueType segment =>
    s!"a value of type {valueType} has no sub-property {segment}"
  | .notAProperty entityType segment => s!"{entityType} cannot be addressed by {segment}"
  | .unknownLinkTarget target => s!"custom link target {target} is not a registered entity type"
  | .endsAtEntity option path => s!"{option} path {path} ends at an entity instead of a value"
  | .notExpandable path => s!"$expand path {path} does not end at a navigation property"
  | .unreachable parent root =>
    s!"{root} is not reachable from {parent} through one navigation property"

/-- Where a path has arrived. -/
inductive Target where
  | entity (t : EntityType)
  | value (type : ValueType)
  /-- A value without declared structure. -/
  | anything
deriving DecidableEq

namespace Target

/-- A value of the type. -/
def ofValue (type : ValueType) : Target := if type.isOpen then .anything else .value type

/-- The step in messages. -/
def stepText (step : PathStep) : String := String.ofList step.text

/-- Takes a step by name from an entity. -/
def entityStep (model : Registry) (t : EntityType) (name : String) (missing : ValidationError) :
    Except ValidationError Target :=
  match t.property? name with
  | some (.navigation n) =>
    match model.target? n with
    | some target => .ok (.entity target)
    | none => .error missing
  | some (.entity p) => .ok (ofValue p.valueType)
  | none => .error missing

/-- Takes a step by name from a value of a complex type. -/
def fieldStep (model : Registry) (complexName name : String) : Except ValidationError Target :=
  match model.complexType? complexName with
  | none => .error (.unknownProperty complexName name)
  | some c =>
    match c.field? name with
    | some field => .ok (ofValue field)
    | none => if c.isOpen then .ok .anything else .error (.unknownProperty c.name name)

/-- Takes a step. -/
def step (model : Registry) : Target → PathStep → Except ValidationError Target
  | .entity t, .primaryKey =>
    match t.entityProperty? t.primaryKey with
    | some key => .ok (.value key.valueType)
    | none => .error (.unknownProperty t.name t.primaryKey)
  | .entity t, .navigation name =>
    entityStep model t name (.unknownNavigation t.name name)
  | .entity t, .property name => entityStep model t name (.unknownProperty t.name name)
  | .entity t, step => .error (.notAProperty t.name (stepText step))
  | .anything, .customLink _ target =>
    match model.entityType? target with
    | some t => .ok (.entity t)
    | none => .error (.unknownLinkTarget target)
  | .anything, .primaryKey =>
    .error (.closedProperty ValueType.object.name (stepText .primaryKey))
  | .anything, _ => .ok .anything
  | .value (.complex complexName), .custom name => fieldStep model complexName name
  | .value (.complex complexName), .property name => fieldStep model complexName name
  | .value (.list element), .index _ => .ok (ofValue element)
  | .value type, step => .error (.closedProperty type.name (stepText step))

/-- Takes the steps of a path in order. -/
def resolve (model : Registry) (root : EntityType) (p : PropertyPath) :
    Except ValidationError Target :=
  p.steps.foldlM (step model) (.entity root)

end Target

namespace Query

/-- A path of a filter or an order ends at a value. -/
def checkValuePath (model : Registry) (root : EntityType) (option : String) (p : PropertyPath) :
    Except ValidationError Unit := do
  match ← Target.resolve model root p with
  | .entity _ => .error (.endsAtEntity option (String.ofList p.text))
  | _ => pure ()

/-- All paths of an expression end at values. -/
def checkExpression (model : Registry) (root : EntityType) (option : String) (e : Expression) :
    Except ValidationError Unit :=
  e.paths.forM (checkValuePath model root option)

/-- A selected path resolves. -/
def checkSelected (model : Registry) (root : EntityType) (p : PropertyPath) :
    Except ValidationError Unit := do
  let _ ← Target.resolve model root p
  pure ()

/-- The type of the entities that an expansion leads to. -/
def expandTarget (model : Registry) (root : EntityType) (p : PropertyPath) :
    Except ValidationError EntityType := do
  match ← Target.resolve model root p with
  | .entity t => pure t
  | _ => .error (.notExpandable (String.ofList p.text))

/-- The options of one level, without the expansions, fit the type. -/
def checkPaths (model : Registry) (root : EntityType) (filter : Option Expression)
    (orderBy : List Order) (select : Select) : Except ValidationError Unit := do
  filter.toList.forM (checkExpression model root "$filter")
  orderBy.forM fun o ↦ checkExpression model root "$orderby" o.expression
  select.paths.forM (checkSelected model root)

mutual

/-- Checks a query against the type that it is asked of. -/
def validate (model : Registry) (root : EntityType) : Query → Except ValidationError Unit
  | ⟨_, _, _, _, filter, orderBy, select, expand⟩ => do
    checkPaths model root filter orderBy select
    validateExpands model root expand

/-- Checks expansions in order, each with its query. -/
def validateExpands (model : Registry) (root : EntityType) :
    List (Expand Query) → Except ValidationError Unit
  | [] => .ok ()
  | ⟨path, none⟩ :: es => do
    let _ ← expandTarget model root path
    validateExpands model root es
  | ⟨path, some q⟩ :: es => do
    let target ← expandTarget model root path
    validate model target q
    validateExpands model root es

end

/-- Checks a query of the entities that one navigation property of the parent leads to. -/
def validateFrom (model : Registry) (parent root : EntityType) (q : Query) :
    Except ValidationError Unit :=
  if parent.navigationProperties.any (·.target = root.id) then q.validate model root
  else .error (.unreachable parent.name root.name)

end Query

end SensorQuery
