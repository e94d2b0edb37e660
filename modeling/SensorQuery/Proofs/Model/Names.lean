import SensorQuery.Model.Registry

/-!
# Names of types and properties

Types are found by their names and those of their sets. The name of a property is sorted by what any
type of the model declares, and found by what one type declares first under it.
-/

namespace SensorQuery

namespace NameTable.Finds

variable {table : NameTable} {names : List String} {name : String} {i : Nat} {α : Type}
  {f : α → String} {items : List α} {item : α}

/-- The table has exactly the names in it. -/
theorem contains_iff (h : table.Finds names) : table.contains name = true ↔ name ∈ names := by
  rw [contains, Option.isSome_iff_exists]
  exact ⟨fun ⟨i, hi⟩ ↦ List.mem_of_getElem? (h.sound name i hi), h.complete name⟩

/-- Where no name stands twice, a name is found exactly at its place. -/
theorem get?_eq_some_iff (h : table.Finds names) (hnames : names.Nodup) :
    table.get? name = some i ↔ names[i]? = some name := by
  refine ⟨h.sound name i, fun hi ↦ ?_⟩
  obtain ⟨j, hj⟩ := h.complete name (List.mem_of_getElem? hi)
  have hplace : i = j := (List.getElem?_inj (List.getElem?_eq_some_iff.mp hi).1 hnames).mp
    (hi.trans (h.sound name j hj).symm)
  rw [hplace, hj]

/-- Where no name stands twice, the place of an item is found by its name. -/
theorem get?_eq_some_iff_exists (h : table.Finds (items.map f)) (hnames : (items.map f).Nodup) :
    table.get? name = some i ↔ ∃ item, items[i]? = some item ∧ f item = name := by
  rw [h.get?_eq_some_iff hnames, List.getElem?_map, Option.map_eq_some_iff]

/-- What is found by a name has the name. -/
theorem of_find?_eq_some (h : table.Finds (items.map f))
    (hitem : table.find? items name = some item) :
    item ∈ items ∧ f item = name := by
  obtain ⟨i, hi, hitem⟩ := Option.bind_eq_some_iff.mp hitem
  have hname := h.sound name i hi
  rw [List.getElem?_map, hitem] at hname
  exact ⟨List.mem_of_getElem? hitem, Option.some.inj hname⟩

/-- By the name of an item something is found. -/
theorem exists_find? (h : table.Finds (items.map f)) (hitem : item ∈ items) :
    ∃ other, table.find? items (f item) = some other := by
  obtain ⟨i, hi⟩ := h.complete (f item) (List.mem_map_of_mem hitem)
  have hname := h.sound (f item) i hi
  rw [List.getElem?_map, Option.map_eq_some_iff] at hname
  obtain ⟨other, hother, -⟩ := hname
  exact ⟨other, by rw [find?, hi, Option.bind_some, hother]⟩

/-- Where no name stands twice, an item is what is found by its name. -/
theorem find?_eq_some_iff (h : table.Finds (items.map f)) (hnames : (items.map f).Nodup) :
    table.find? items name = some item ↔ item ∈ items ∧ f item = name := by
  refine ⟨h.of_find?_eq_some, fun ⟨hmem, hname⟩ ↦ ?_⟩
  obtain ⟨i, hi⟩ := List.getElem?_of_mem hmem
  rw [find?, (h.get?_eq_some_iff_exists hnames).mpr ⟨item, hi, hname⟩, Option.bind_some, hi]

end NameTable.Finds

namespace EntityType

/-- The type with more properties behind the others. -/
def pushAll (t : EntityType) (ps : List Property) : EntityType := ps.foldl push t

variable {t : EntityType} {name : String} {p : Property}

/-- A property is added behind the others. -/
@[simp] theorem properties_push : (t.push p).properties = t.properties ++ [p] := rfl

/-- More properties change nothing that no type takes from its properties. -/
theorem pushAll_eq_of_push {α : Type} {f : EntityType → α}
    (h : ∀ (t : EntityType) (p : Property), f (t.push p) = f t) (t : EntityType)
    (ps : List Property) : f (t.pushAll ps) = f t := by
  induction ps generalizing t with
  | nil => rfl
  | cons p ps ih => exact (ih (t.push p)).trans (h t p)

/-- Adding properties keeps the id of a type. -/
@[simp] theorem id_pushAll (t : EntityType) (ps : List Property) : (t.pushAll ps).id = t.id :=
  pushAll_eq_of_push (fun _ _ ↦ rfl) t ps

/-- Adding properties keeps the name of a type. -/
@[simp] theorem name_pushAll (t : EntityType) (ps : List Property) : (t.pushAll ps).name = t.name :=
  pushAll_eq_of_push (fun _ _ ↦ rfl) t ps

/-- Adding properties keeps the set name of a type. -/
@[simp] theorem plural_pushAll (t : EntityType) (ps : List Property) :
    (t.pushAll ps).plural = t.plural := pushAll_eq_of_push (fun _ _ ↦ rfl) t ps

/-- Adding properties keeps the name of the key. -/
@[simp] theorem primaryKey_pushAll (t : EntityType) (ps : List Property) :
    (t.pushAll ps).primaryKey = t.primaryKey := pushAll_eq_of_push (fun _ _ ↦ rfl) t ps

/-- Adding properties keeps the kind of key. -/
@[simp] theorem keyKind_pushAll (t : EntityType) (ps : List Property) :
    (t.pushAll ps).keyKind = t.keyKind := pushAll_eq_of_push (fun _ _ ↦ rfl) t ps

/-- Properties are added behind the others, in order. -/
@[simp] theorem properties_pushAll (t : EntityType) (ps : List Property) :
    (t.pushAll ps).properties = t.properties ++ ps := by
  induction ps generalizing t with
  | nil => exact (List.append_nil _).symm
  | cons p ps ih => simpa [pushAll] using ih (t.push p)

/-- Properties can be added in two steps. -/
theorem pushAll_append (t : EntityType) (ps qs : List Property) :
    t.pushAll (ps ++ qs) = (t.pushAll ps).pushAll qs := List.foldl_append

/-- The entity properties of a type are its properties that hold values. -/
theorem mem_entityProperties {p : EntityProperty} :
    p ∈ t.entityProperties ↔ .entity p ∈ t.properties := by
  rw [entityProperties, List.mem_filterMap]
  constructor
  · rintro ⟨p', hp', hp⟩
    cases p' <;> cases hp
    exact hp'
  · exact fun hp ↦ ⟨_, hp, rfl⟩

/-- A property that is found is a property of the type and has the name. -/
theorem mem_of_property? (h : t.property? name = some p) : p ∈ t.properties ∧ p.name = name :=
  t.indexed.of_find?_eq_some h

end EntityType

namespace EntityTable

variable (table : EntityTable)

/-- A type is added behind the others. -/
@[simp] theorem types_insert (t : EntityType) : (table.insert t).types = table.types ++ [t] := rfl

/-- A property is added to the type at the place of the id. -/
@[simp] theorem types_push (id : Nat) (p : Property) :
    (table.push id p).types = table.types.modify id (·.push p) := rfl

end EntityTable

namespace Registry

variable {model : Registry} {t : EntityType} {name : String}

/-- A type that is found is one of the model and has the name. -/
theorem name_of_entityType? (h : model.entityType? name = some t) :
    t ∈ model.types ∧ t.name = name :=
  model.named.of_find?_eq_some h

/-- A type that is found by its set is one of the model, and its set has the name. -/
theorem plural_of_entitySet? (h : model.entitySet? name = some t) :
    t ∈ model.types ∧ t.plural = name :=
  model.inSets.of_find?_eq_some h

/-- A navigation property leads to a type of the model. -/
theorem mem_of_target? {n : NavigationProperty} (h : model.target? n = some t) : t ∈ model.types :=
  List.mem_of_getElem? h

/-- The names of navigation properties are those that some type has. -/
theorem isNavigationName_iff : model.isNavigationName name = true ↔
    ∃ t ∈ model.types, ∃ n, .navigation n ∈ t.properties ∧ n.name = name := by
  rw [isNavigationName, List.contains_iff_mem]
  exact model.recorded.navigation name

/-- The names of entity properties are those that some type has. -/
theorem isEntityPropertyName_iff : model.isEntityPropertyName name = true ↔
    ∃ t ∈ model.types, ∃ p, .entity p ∈ t.properties ∧ p.name = name := by
  rw [isEntityPropertyName, List.contains_iff_mem]
  exact model.recorded.entity name

end Registry

end SensorQuery
