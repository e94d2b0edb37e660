import SensorQuery.Model.EntityType

/-!
# Registries

The entity types and complex types of a finished model, with the tables and the sets of names that
requests are read by. The tables of the types are kept beside the types while these grow
(`EntityTable`), and the sets of names are filled when the types are complete (`PropertyNames`).
-/

namespace SensorQuery

/-! ### Entity types -/

/-- Entity types in the order of their declaration, with the tables that find them. -/
@[ext] structure EntityTable where
  types : List EntityType
  /-- The ids of the types by name. -/
  byName : NameTable
  /-- The ids of the types by the names of their sets. -/
  byPlural : NameTable
  named : byName.Finds (types.map EntityType.name)
  inSets : byPlural.Finds (types.map EntityType.plural)
deriving DecidableEq

namespace EntityTable

/-- There are no types. -/
def empty : EntityTable := ⟨[], .empty, .empty, .empty, .empty⟩

/-- The table with one more type behind the others. -/
def insert (table : EntityTable) (t : EntityType) : EntityTable where
  types := table.types ++ [t]
  byName := table.byName.insert t.name table.types.length
  byPlural := table.byPlural.insert t.plural table.types.length
  named := by simpa using table.named.insert t.name
  inSets := by simpa using table.inSets.insert t.plural

/-- The table with other types that have the same names and sets. -/
def withTypes (table : EntityTable) (types : List EntityType)
    (names : types.map EntityType.name = table.types.map EntityType.name)
    (plurals : types.map EntityType.plural = table.types.map EntityType.plural) :
    EntityTable where
  types := types
  byName := table.byName
  byPlural := table.byPlural
  named := names ▸ table.named
  inSets := plurals ▸ table.inSets

/-- A property more on one type changes nothing that no type takes from its properties. -/
theorem map_modify_push {α : Type} {f : EntityType → α} {p : Property}
    (h : ∀ t : EntityType, f (t.push p) = f t) (types : List EntityType) (id : Nat) :
    (types.modify id (·.push p)).map f = types.map f := by
  induction types generalizing id with
  | nil => rw [List.modify_nil]
  | cons t types ih =>
    cases id with
    | zero => rw [List.modify_zero_cons, List.map_cons, List.map_cons, h]
    | succ id => rw [List.modify_succ_cons, List.map_cons, List.map_cons, ih]

/-- The table with one more property on the type with the id. -/
def push (table : EntityTable) (id : Nat) (p : Property) : EntityTable :=
  table.withTypes (table.types.modify id (·.push p)) (map_modify_push (fun _ ↦ rfl) _ _)
    (map_modify_push (fun _ ↦ rfl) _ _)

end EntityTable

/-! ### Names of properties -/

/-- Names of navigation properties and of entity properties. -/
structure PropertyNames where
  navigation : List String
  entity : List String
deriving DecidableEq

namespace PropertyNames

/-- The names with that of one more property. -/
def record (names : PropertyNames) : Property → PropertyNames
  | .entity p => { names with entity := names.entity.insert p.name }
  | .navigation n => { names with navigation := names.navigation.insert n.name }

/-- The names that are recorded when all properties of the types are gone through. -/
def ofTypes (types : List EntityType) : PropertyNames :=
  types.foldl (fun names t ↦ t.properties.foldl record names) ⟨[], []⟩

/-- The names are those of the properties of the types. -/
structure AreOf (names : PropertyNames) (types : List EntityType) : Prop where
  navigation : ∀ name, name ∈ names.navigation ↔
    ∃ t ∈ types, ∃ n, .navigation n ∈ t.properties ∧ n.name = name
  entity : ∀ name, name ∈ names.entity ↔
    ∃ t ∈ types, ∃ p, .entity p ∈ t.properties ∧ p.name = name

variable {names : PropertyNames} {name : String}

/-- Recording properties adds the names of the navigation properties among them. -/
theorem mem_navigation_foldl {ps : List Property} :
    name ∈ (ps.foldl record names).navigation ↔
      name ∈ names.navigation ∨ ∃ n, .navigation n ∈ ps ∧ n.name = name := by
  induction ps generalizing names with
  | nil => simp
  | cons p ps ih =>
    cases p with
    | entity p => simp [ih, record]
    | navigation n => simp [ih, record, or_assoc, or_left_comm, eq_comm]

/-- Recording properties adds the names of the entity properties among them. -/
theorem mem_entity_foldl {ps : List Property} :
    name ∈ (ps.foldl record names).entity ↔
      name ∈ names.entity ∨ ∃ p, .entity p ∈ ps ∧ p.name = name := by
  induction ps generalizing names with
  | nil => simp
  | cons p ps ih =>
    cases p with
    | entity p => simp [ih, record, or_assoc, or_left_comm, eq_comm]
    | navigation n => simp [ih, record]

/-- What is recorded of all types is what they have. -/
theorem areOf_ofTypes (types : List EntityType) : (ofTypes types).AreOf types := by
  have hfold : ofTypes types = (types.flatMap (·.properties)).foldl record ⟨[], []⟩ := by
    rw [List.foldl_flatMap]
    rfl
  constructor
  · intro name
    rw [hfold, mem_navigation_foldl]
    simp only [List.mem_flatMap]
    grind
  · intro name
    rw [hfold, mem_entity_foldl]
    simp only [List.mem_flatMap]
    grind

end PropertyNames

/-! ### Finished models -/

/-- A finished model. -/
structure Registry extends EntityTable where
  /-- The complex types, no two of which have one name. -/
  complexTypes : List ComplexType
  /-- The names that the properties of the types have. -/
  propertyNames : PropertyNames
  recorded : propertyNames.AreOf types
  /-- The names of the applied extensions in order. -/
  extensions : List String
deriving DecidableEq

namespace Registry

/-- The model with the types, the names of whose properties are recorded. -/
def ofTable (table : EntityTable) (complexTypes : List ComplexType) (extensions : List String) :
    Registry where
  toEntityTable := table
  complexTypes := complexTypes
  propertyNames := .ofTypes table.types
  recorded := PropertyNames.areOf_ofTypes table.types
  extensions := extensions

/-- The entity type with the name. -/
def entityType? (r : Registry) (name : String) : Option EntityType :=
  r.byName.find? r.types name

/-- The entity type whose entity set has the name. -/
def entitySet? (r : Registry) (plural : String) : Option EntityType :=
  r.byPlural.find? r.types plural

/-- The complex type with the name, which no other has. -/
def complexType? (r : Registry) (name : String) : Option ComplexType :=
  r.complexTypes.find? (·.name = name)

/-- The entity type that a navigation property leads to. -/
def target? (r : Registry) (n : NavigationProperty) : Option EntityType := r.types[n.target]?

/-- The name is recorded as that of a navigation property, whichever type has it. -/
def isNavigationName (r : Registry) (name : String) : Bool :=
  r.propertyNames.navigation.contains name

/-- The name is recorded as that of an entity property, whichever type has it. -/
def isEntityPropertyName (r : Registry) (name : String) : Bool :=
  r.propertyNames.entity.contains name

end Registry

end SensorQuery
