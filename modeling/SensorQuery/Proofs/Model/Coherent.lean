import SensorQuery.Proofs.Model.Assembled

/-!
# Registries that hold together

Whatever is declared in whatever order, a registry that the declarations come to is coherent:
everything is found under its name and nothing else is, every type begins with its key, and every
navigation property has its inverse on its target (`Registry.Coherent`). All of it is read off what
consistent declarations come to (`Builder.typeOf`).
-/

namespace SensorQuery

open Fallible

namespace Builder

/-- The builder comes from operations in any order, of which some may fail. The code of an
extension may go on after an operation that failed; when it is done, its name is recorded. -/
inductive Grown : Builder → Prop where
  | empty : Grown empty
  | declare {b : Builder} (h : Grown b) (d : Declaration) : Grown (b.declare d).1
  | record {b : Builder} (h : Grown b) (name : String) :
    Grown { b with extensions := b.extensions ++ [name] }

/-- What each operation keeps is kept throughout. -/
theorem Kept.grown {P : Builder → Prop} (kept : Kept P) (hempty : P Builder.empty) {b : Builder}
    (h : b.Grown) : P b := by
  induction h with
  | empty => exact hempty
  | declare _ d ih => exact kept.declare d ih
  | record _ name ih => exact kept.extension name ih

/-- Declaring more keeps a builder among those that are grown. -/
theorem Grown.foldl {b : Builder} (h : b.Grown) (ds : List Declaration) :
    (ds.foldl (fun b d ↦ (b.declare d).1) b).Grown := by
  induction ds generalizing b with
  | nil => exact h
  | cons d ds ih => exact ih (.declare h d)

/-- The declarations of a grown builder are distinct. -/
theorem Grown.distinct {b : Builder} (h : b.Grown) : b.Distinct :=
  kept_distinct.grown distinct_empty h

/-- No two complex types have one name. -/
def DistinctComplex (b : Builder) : Prop := (b.complexTypes.map (·.name)).Nodup

private theorem kept_distinctComplex : Kept DistinctComplex where
  entityType h hd := by
    obtain ⟨-, -, rfl⟩ := addEntityType_eq_ok hd
    exact h
  property _ h := h
  complexType h hc := by
    obtain ⟨hnew, rfl⟩ := addComplexType_eq_ok hc
    exact nodup_concat h hnew
  link _ h := h
  extension _ h := h

/-! ### Properties of one type -/

/-- The first property is the key, and no two properties have one name. -/
structure Keyed (t : EntityType) : Prop where
  key : ∃ more, t.properties = .entity ⟨t.primaryKey, .id, false⟩ :: more
  names : (t.properties.map Property.name).Nodup

variable {b : Builder}

private theorem Consistent.keyed_typeOf (hb : b.Consistent) {d : EntityDeclaration}
    (hd : d ∈ b.types) :
    Keyed (b.typeOf d) where
  key := by
    rw [properties_typeOf, primaryKey_typeOf, List.cons_append]
    exact ⟨_, rfl⟩
  names := by
    rw [names_typeOf]
    exact hb.names d hd

/-! ### Links and their inverses -/

private theorem Consistent.exists_type_of_mem_additions (hb : b.Consistent) {owner : String}
    {p : Property} (h : (owner, p) ∈ b.additions) :
    ∃ t ∈ b.types.map b.typeOf, t.id = b.typeId owner ∧ p ∈ t.properties := by
  obtain ⟨d, hd, rfl⟩ := forall_additions_iff.mpr ⟨hb.owners, hb.ends⟩ _ h
  refine ⟨b.typeOf d, List.mem_map_of_mem hd, id_typeOf, ?_⟩
  rw [properties_typeOf]
  exact List.mem_append_right _ (mem_addedTo.mpr h)

/-- Types only have links that are added to them. -/
theorem exists_link_of_mem_typeOf {d : EntityDeclaration} {n : NavigationProperty}
    (h : .navigation n ∈ (b.typeOf d).properties) :
    ∃ l ∈ b.links, (d.name, .navigation n) ∈ l.properties b.typeId := by
  have hadded : .navigation n ∈ addedTo b.additions d.name := by
    simpa [properties_typeOf] using h
  simpa [additions] using mem_addedTo.mp hadded

-- Each side of a link leads to the type of the other side, which leads back.
private theorem exists_inverse {typeId : String → Nat} {l : Link} {owner : String}
    {n : NavigationProperty} (h : (owner, .navigation n) ∈ l.properties typeId) :
    ∃ other back, (other, .navigation back) ∈ l.properties typeId ∧ typeId other = n.target ∧
      back.name = n.inverse ∧ back.target = typeId owner ∧ back.inverse = n.name := by
  by_cases hsymmetric : l.IsSymmetric
  · -- A link of a type to itself under one name is its own inverse.
    have hsame := hsymmetric
    obtain ⟨htypes, hnames⟩ := hsame
    rw [Link.properties, if_pos hsymmetric] at h ⊢
    cases List.mem_singleton.mp h
    exact ⟨_, _, List.mem_singleton_self _, by simp [navigation, htypes],
      by simp [navigation, hnames], by simp [navigation, htypes], by simp [navigation, hnames]⟩
  · rw [Link.properties, if_neg hsymmetric] at h ⊢
    rcases List.mem_pair.mp h with h | h
    · cases h
      exact ⟨_, _, List.mem_pair.mpr (.inr rfl), rfl, rfl, rfl, rfl⟩
    · cases h
      exact ⟨_, _, List.mem_pair.mpr (.inl rfl), rfl, rfl, rfl, rfl⟩

private theorem Consistent.exists_back (hb : b.Consistent) {t : EntityType}
    (ht : t ∈ b.types.map b.typeOf) {n : NavigationProperty} (hn : .navigation n ∈ t.properties) :
    ∃ target ∈ b.types.map b.typeOf, target.id = n.target ∧ ∃ back : NavigationProperty,
      .navigation back ∈ target.properties ∧ back.name = n.inverse ∧ back.target = t.id ∧
        back.inverse = n.name := by
  obtain ⟨d, -, rfl⟩ := List.mem_map.mp ht
  obtain ⟨l, hl, hside⟩ := exists_link_of_mem_typeOf hn
  obtain ⟨other, back, hback, hleads, hname, htarget, hinverse⟩ := exists_inverse hside
  have hadded : (other, .navigation back) ∈ b.additions :=
    List.mem_append_right _ (List.mem_flatMap.mpr ⟨l, hl, hback⟩)
  obtain ⟨target, hmem, hid, hhas⟩ := hb.exists_type_of_mem_additions hadded
  exact ⟨target, hmem, hid.trans hleads, back, hhas, hname, by rw [htarget, id_typeOf], hinverse⟩

/-- The types that the declarations come to have their positions for ids. -/
theorem Distinct.id_of_finalize (hb : b.Distinct) {model : Registry} (h : b.finalize = .ok model)
    {i : Nat} {t : EntityType} (ht : model.types[i]? = some t) : t.id = i := by
  rw [hb.types_of_finalize h, List.getElem?_map, Option.map_eq_some_iff] at ht
  obtain ⟨d, hd, rfl⟩ := ht
  rw [id_typeOf, hb.typeId_eq hd]

end Builder

namespace Registry

/-- Everything in the model is found under its name and nothing else is, ids are positions, every
type begins with its key, every navigation property has its inverse on its target, and the recorded
names are those of the properties. -/
structure Coherent (model : Registry) : Prop where
  /-- No two types have one name. -/
  names : (model.types.map EntityType.name).Nodup
  /-- No two sets have one name. -/
  plurals : (model.types.map EntityType.plural).Nodup
  /-- The id of a type is its position. -/
  ids : ∀ i (t : EntityType), model.types[i]? = some t → t.id = i
  byName : ∀ name i, model.byName.get? name = some i ↔
    ∃ t, model.types[i]? = some t ∧ t.name = name
  byPlural : ∀ plural i, model.byPlural.get? plural = some i ↔
    ∃ t, model.types[i]? = some t ∧ t.plural = plural
  entityType? : ∀ name t, model.entityType? name = some t ↔ t ∈ model.types ∧ t.name = name
  entitySet? : ∀ plural t, model.entitySet? plural = some t ↔ t ∈ model.types ∧ t.plural = plural
  complexType? : ∀ name c, model.complexType? name = some c ↔
    c ∈ model.complexTypes ∧ c.name = name
  /-- No two properties of a type have one name. -/
  properties : ∀ t ∈ model.types, (t.properties.map Property.name).Nodup
  index : ∀ t ∈ model.types, ∀ name i, t.index.get? name = some i ↔
    ∃ p, t.properties[i]? = some p ∧ p.name = name
  property? : ∀ t ∈ model.types, ∀ name p, t.property? name = some p ↔
    p ∈ t.properties ∧ p.name = name
  /-- The first property of a type is its key. -/
  key : ∀ t ∈ model.types, t.properties.head? = some (.entity ⟨t.primaryKey, .id, false⟩)
  /-- A navigation property leads to a type, from which its inverse leads back. -/
  inverse : ∀ t ∈ model.types, ∀ n, .navigation n ∈ t.properties → ∃ target back,
    model.types[n.target]? = some target ∧ target.navigationProperty? n.inverse = some back ∧
      back.target = t.id ∧ back.inverse = n.name
  isNavigationName : ∀ name, model.isNavigationName name = true ↔
    ∃ t ∈ model.types, ∃ n, .navigation n ∈ t.properties ∧ n.name = name
  isEntityPropertyName : ∀ name, model.isEntityPropertyName name = true ↔
    ∃ t ∈ model.types, ∃ p, .entity p ∈ t.properties ∧ p.name = name

variable {model : Registry} {t : EntityType}

/-- A type stands at the position of its id. -/
theorem Coherent.getElem?_id (h : model.Coherent) (ht : t ∈ model.types) :
    model.types[t.id]? = some t := by
  obtain ⟨i, hi⟩ := List.getElem?_of_mem ht
  rwa [h.ids i t hi]

/-- A navigation property leads to the type that has its target for an id. -/
theorem Coherent.target?_eq_some_iff (h : model.Coherent) {n : NavigationProperty} :
    model.target? n = some t ↔ t ∈ model.types ∧ t.id = n.target := by
  refine ⟨fun ht ↦ ⟨List.mem_of_getElem? ht, h.ids _ t ht⟩, fun ⟨hmem, hid⟩ ↦ ?_⟩
  rw [target?, ← hid, h.getElem?_id hmem]

end Registry

/-- In a list without repeated labels, an item is what is found by its label. -/
theorem find?_eq_some_of_nodup {α β : Type} [DecidableEq β] {f : α → β} {xs : List α}
    (h : (xs.map f).Nodup) (y : β) (x : α) :
    xs.find? (fun z ↦ f z = y) = some x ↔ x ∈ xs ∧ f x = y := by
  induction xs with
  | nil => simp
  | cons z xs ih =>
    rw [List.map_cons, List.nodup_cons] at h
    by_cases hz : f z = y
    · have hother : x ∈ xs → f x ≠ y := by
        rintro hx rfl
        exact h.1 (hz ▸ List.mem_map_of_mem hx)
      rw [List.find?_cons_of_pos (by simpa using hz), Option.some.injEq]
      grind
    · rw [List.find?_cons_of_neg (by simpa using hz), ih h.2]
      grind

/-- Whatever was declared, the model that it comes to is coherent. -/
theorem Builder.Grown.coherent {b : Builder} (hb : b.Grown) {model : Registry}
    (h : b.finalize = .ok model) : model.Coherent := by
  have hnames := hb.distinct.names_of_finalize h
  have hplurals := hb.distinct.plurals_of_finalize h
  have htypes := hb.distinct.types_of_finalize h
  obtain ⟨hconsistent, hmodel⟩ := hb.distinct.finalize_eq_ok_iff.mp h
  have hcomplex : (model.complexTypes.map (·.name)).Nodup := by
    rw [hmodel]
    exact kept_distinctComplex.grown List.nodup_nil hb
  have hkeyed : ∀ t ∈ model.types, Keyed t := by
    rw [htypes]
    exact List.forall_mem_map.mpr fun d hd ↦ hconsistent.keyed_typeOf hd
  have hproperty (t : EntityType) (ht : t ∈ model.types) (name : String) (p : Property) :
      t.property? name = some p ↔ p ∈ t.properties ∧ p.name = name :=
    t.indexed.find?_eq_some_iff (hkeyed t ht).names
  exact {
    names := hnames
    plurals := hplurals
    ids := fun i t ↦ hb.distinct.id_of_finalize h
    byName := fun name i ↦ model.named.get?_eq_some_iff_exists hnames
    byPlural := fun plural i ↦ model.inSets.get?_eq_some_iff_exists hplurals
    entityType? := fun name t ↦ model.named.find?_eq_some_iff hnames
    entitySet? := fun plural t ↦ model.inSets.find?_eq_some_iff hplurals
    complexType? := fun name c ↦ find?_eq_some_of_nodup hcomplex name c
    properties := fun t ht ↦ (hkeyed t ht).names
    index := fun t ht name i ↦ t.indexed.get?_eq_some_iff_exists (hkeyed t ht).names
    property? := hproperty
    key := fun t ht ↦ by
      obtain ⟨more, hkey⟩ := (hkeyed t ht).key
      rw [hkey, List.head?_cons]
    inverse := fun t ht n hn ↦ by
      rw [htypes] at ht
      obtain ⟨target, htarget, hleads, back, hback, hname, hown, hinverse⟩ :=
        hconsistent.exists_back ht hn
      rw [← htypes] at htarget
      obtain ⟨i, hi⟩ := List.getElem?_of_mem htarget
      refine ⟨target, back, ?_, ?_, hown, hinverse⟩
      · rwa [← hleads, hb.distinct.id_of_finalize h hi]
      · rw [EntityType.navigationProperty?, (hproperty target htarget _ _).mpr ⟨hback, hname⟩]
        rfl
    isNavigationName := fun _ ↦ Registry.isNavigationName_iff
    isEntityPropertyName := fun _ ↦ Registry.isEntityPropertyName_iff }

/-- Whatever operations a model is built by, in whatever order and however many of them fail, it is
coherent if it can be finalized. -/
theorem built_model_is_coherent (b : Builder) (hb : b.Grown) (model : Registry)
    (h : b.finalize = .ok model) : model.Coherent := hb.coherent h

namespace Museum

/-- The museum with an annex: a link of rooms that is its own inverse, a type that is there already,
a link between exhibits, and one more property. -/
def annexDeclarations : List Declaration :=
  declarations ++
    [.link ⟨⟨"Room", "adjacent", true, false⟩, ⟨"Room", "adjacent", true, false⟩⟩,
      .entityType ⟨"Room", "Halls", "id", .long, []⟩,
      .link ⟨⟨"Exhibit", "parts", true, false⟩, ⟨"Exhibit", "whole", false, false⟩⟩,
      .property "Room" ⟨"floor", .integer, false⟩]

/-- The annex as an extension that goes on after the declaration that fails. -/
def annex : Builder :=
  let declared := annexDeclarations.foldl (fun b d ↦ (b.declare d).1) Builder.empty
  { declared with extensions := declared.extensions ++ ["annex"] }

/-- What the annex comes to. -/
def annexModel : Registry :=
  .ofTable
    ((EntityTable.empty.insert
        ((EntityType.bare 0 "Room" "Rooms" "id" .long).pushAll
          [.entity ⟨"id", .id, false⟩, .entity ⟨"name", .string, true⟩,
            .entity ⟨"floor", .integer, false⟩, .navigation ⟨"exhibits", 1, true, "room", false⟩,
            .navigation ⟨"adjacent", 0, true, "adjacent", false⟩])).insert
      (exhibit.pushAll
        [.navigation ⟨"parts", 1, true, "whole", false⟩,
          .navigation ⟨"whole", 1, false, "parts", false⟩]))
    model.complexTypes ["annex"]

end Museum

/-- The theorem at a model with links of types to themselves and a declaration that failed. -/
theorem museum_annex_is_coherent :
    Museum.annex.finalize = .ok Museum.annexModel ∧ Museum.annexModel.Coherent := by
  have hgrown : Museum.annex.Grown :=
    .record (Builder.Grown.empty.foldl Museum.annexDeclarations) "annex"
  exact ⟨rfl, built_model_is_coherent _ hgrown _ rfl⟩

end SensorQuery
