import SensorQuery.Proofs.Model.Coherent

/-!
# Models within models

A model is within another that has all its types in their places, with all their properties, and all
its complex types (`Registry.Within`). What is found in the one is then found in the other. A model
comes to be within another when more is declared (`Builder.Extends`). Declarations that are only
among others (`Builder.Among`) give the same properties as well, but their types may get other ids.
-/

namespace SensorQuery

open Fallible

/-- The other type is the same with these properties, and maybe more. -/
structure EntityType.Within (t t' : EntityType) : Prop where
  id : t'.id = t.id
  name : t'.name = t.name
  plural : t'.plural = t.plural
  primaryKey : t'.primaryKey = t.primaryKey
  keyKind : t'.keyKind = t.keyKind
  properties : t.properties ⊆ t'.properties

namespace Registry

/-- The other model has all types in their places, with all their properties, and all complex
types. -/
structure Within (model more : Registry) : Prop where
  types : ∀ (i : Nat) (t : EntityType), model.types[i]? = some t →
    ∃ t', more.types[i]? = some t' ∧ t.Within t'
  complexTypes : model.complexTypes ⊆ more.complexTypes

namespace Within

variable {model more : Registry} {t t' : EntityType} {p : Property} {name : String}

/-- Every type has its like in the other model. -/
theorem exists_mem (h : model.Within more) (ht : t ∈ model.types) :
    ∃ t' ∈ more.types, t.Within t' := by
  obtain ⟨i, hi⟩ := List.getElem?_of_mem ht
  obtain ⟨t', ht', hwithin⟩ := h.types i t hi
  exact ⟨t', List.mem_of_getElem? ht', hwithin⟩

/-- The type of a name has the name in the other model. -/
theorem entityType? (h : model.Within more) (hmore : more.Coherent)
    (ht : model.entityType? name = some t) :
    ∃ t', more.entityType? name = some t' ∧ t' ∈ more.types ∧ t.Within t' := by
  obtain ⟨hmem, rfl⟩ := name_of_entityType? ht
  obtain ⟨t', ht', hwithin⟩ := h.exists_mem hmem
  exact ⟨t', (hmore.entityType? _ t').mpr ⟨ht', hwithin.name⟩, ht', hwithin⟩

/-- The type of a set has the set in the other model. -/
theorem entitySet? (h : model.Within more) (hmore : more.Coherent)
    (ht : model.entitySet? name = some t) :
    ∃ t', more.entitySet? name = some t' ∧ t' ∈ more.types ∧ t.Within t' := by
  obtain ⟨hmem, rfl⟩ := plural_of_entitySet? ht
  obtain ⟨t', ht', hwithin⟩ := h.exists_mem hmem
  exact ⟨t', (hmore.entitySet? _ t').mpr ⟨ht', hwithin.plural⟩, ht', hwithin⟩

/-- A navigation property leads to the like of the type that it leads to. -/
theorem target? {n : NavigationProperty} (h : model.Within more)
    (ht : model.target? n = some t) :
    ∃ t', more.target? n = some t' ∧ t' ∈ more.types ∧ t.Within t' := by
  obtain ⟨t', ht', hwithin⟩ := h.types _ t ht
  exact ⟨t', ht', List.mem_of_getElem? ht', hwithin⟩

/-- A complex type has its name in the other model. -/
theorem complexType? {c : ComplexType} (h : model.Within more) (hmore : more.Coherent)
    (hc : model.complexType? name = some c) : more.complexType? name = some c := by
  have hmem : c ∈ model.complexTypes := List.mem_of_find?_eq_some hc
  have hname : c.name = name := by simpa using List.find?_some hc
  exact (hmore.complexType? name c).mpr ⟨h.complexTypes hmem, hname⟩

/-- A property keeps its name, which no other property of the larger type has. -/
theorem property? (hmore : more.Coherent) (ht' : t' ∈ more.types) (h : t.Within t')
    (hp : t.property? name = some p) : t'.property? name = some p := by
  obtain ⟨hmem, hname⟩ := EntityType.mem_of_property? hp
  exact (hmore.property? t' ht' name p).mpr ⟨h.properties hmem, hname⟩

/-- Names that some type has for values are names of values in the other model. -/
theorem isEntityPropertyName (h : model.Within more)
    (hname : model.isEntityPropertyName name = true) : more.isEntityPropertyName name = true := by
  obtain ⟨t, ht, p, hp, hname⟩ := isEntityPropertyName_iff.mp hname
  obtain ⟨t', ht', hwithin⟩ := h.exists_mem ht
  exact isEntityPropertyName_iff.mpr ⟨t', ht', p, hwithin.properties hp, hname⟩

/-- Names that some type has for links are names of links in the other model. -/
theorem isNavigationName (h : model.Within more) (hname : model.isNavigationName name = true) :
    more.isNavigationName name = true := by
  obtain ⟨t, ht, n, hn, hname⟩ := isNavigationName_iff.mp hname
  obtain ⟨t', ht', hwithin⟩ := h.exists_mem ht
  exact isNavigationName_iff.mpr ⟨t', ht', n, hwithin.properties hn, hname⟩

end Within

end Registry

namespace Builder

variable {b more : Builder} {model model' : Registry} {d : EntityDeclaration}

/-! ### The same declarations among more -/

/-- All declarations are among those of the other builder. -/
structure Among (b more : Builder) : Prop where
  types : b.types ⊆ more.types
  properties : b.properties ⊆ more.properties
  complexTypes : b.complexTypes ⊆ more.complexTypes
  links : b.links ⊆ more.links

/-- A type that is declared among more has no value less. -/
theorem Among.entity_mem_typeOf (h : b.Among more) {p : EntityProperty}
    (hp : .entity p ∈ (b.typeOf d).properties) : .entity p ∈ (more.typeOf d).properties := by
  rw [Builder.entity_mem_typeOf] at hp ⊢
  exact hp.imp_right (.imp_right fun hp ↦ h.properties hp)

-- A side of a link leads to the type of the other side, whatever ids the types have.
private theorem exists_target {typeId : String → Nat} {l : Link} {owner : String}
    {n : NavigationProperty} (h : (owner, .navigation n) ∈ l.properties typeId) :
    ∃ name, (name = l.source.entityType ∨ name = l.target.entityType) ∧ n.target = typeId name ∧
      ∀ other : String → Nat,
        (owner, .navigation { n with target := other name }) ∈ l.properties other := by
  unfold Link.properties at h ⊢
  rcases List.mem_cons.mp h with h | h
  · cases h
    exact ⟨_, .inr rfl, rfl, fun other ↦ List.mem_cons_self⟩
  · split at h
    · cases h
    · next hsymmetric =>
      cases List.mem_singleton.mp h
      refine ⟨_, .inl rfl, rfl, fun other ↦ List.mem_cons_of_mem _ ?_⟩
      rw [if_neg hsymmetric]
      exact List.mem_singleton_self _

/-- A type that is declared among more has no link less. The link leads to the type of the same
name, which may have another id. -/
theorem Among.exists_navigation_mem_typeOf (h : b.Among more) (hb : b.Consistent)
    {n : NavigationProperty} (hn : .navigation n ∈ (b.typeOf d).properties) :
    ∃ name, b.Declared name ∧ n.target = b.typeId name ∧
      .navigation { n with target := more.typeId name } ∈ (more.typeOf d).properties := by
  obtain ⟨l, hl, hside⟩ := exists_link_of_mem_typeOf hn
  obtain ⟨name, hname, htarget, hsides⟩ := exists_target hside
  have hdeclared : b.Declared name := by
    rcases hname with rfl | rfl
    · exact (hb.ends l hl).1
    · exact (hb.ends l hl).2
  have hadded : (d.name, .navigation { n with target := more.typeId name }) ∈ more.additions :=
    List.mem_append_right _ (List.mem_flatMap.mpr ⟨l, h.links hl, hsides more.typeId⟩)
  refine ⟨name, hdeclared, htarget, ?_⟩
  rw [properties_typeOf]
  exact List.mem_append_right _ (mem_addedTo.mpr hadded)

/-! ### Declaring more -/

/-- The builder after declarations one by one, whichever of them fail. -/
def declareEach (b : Builder) (ds : List Declaration) : Builder :=
  ds.foldl (fun b d ↦ (b.declare d).1) b

/-- Declaring more keeps a builder among those that are grown, whatever fails. -/
theorem Grown.declareEach (h : b.Grown) (ds : List Declaration) : (b.declareEach ds).Grown :=
  h.foldl ds

/-- The declarations of each sort begin those of the other builder. -/
structure Extends (b more : Builder) : Prop where
  types : b.types <+: more.types
  properties : b.properties <+: more.properties
  complexTypes : b.complexTypes <+: more.complexTypes
  links : b.links <+: more.links

private theorem Extends.refl (b : Builder) : b.Extends b :=
  ⟨List.prefix_rfl, List.prefix_rfl, List.prefix_rfl, List.prefix_rfl⟩

private theorem Extends.among (h : b.Extends more) : b.Among more :=
  ⟨h.types.subset, h.properties.subset, h.complexTypes.subset, h.links.subset⟩

private theorem kept_extends (b : Builder) : Kept b.Extends where
  entityType h hd := by
    obtain ⟨-, -, rfl⟩ := addEntityType_eq_ok hd
    exact { h with types := h.types.trans (List.prefix_append _ _) }
  property p h := { h with properties := h.properties.trans (List.prefix_append _ _) }
  complexType h hc := by
    obtain ⟨-, rfl⟩ := addComplexType_eq_ok hc
    exact { h with complexTypes := h.complexTypes.trans (List.prefix_append _ _) }
  link l h := { h with links := h.links.trans (List.prefix_append _ _) }
  extension _ h := { h with }

private theorem extends_declareEach (b : Builder) (ds : List Declaration) :
    b.Extends (b.declareEach ds) := by
  have hfold (more : Builder) (h : b.Extends more) : b.Extends (more.declareEach ds) := by
    induction ds generalizing more with
    | nil => exact h
    | cons d ds ih => exact ih _ ((kept_extends b).declare d h)
  exact hfold b (.refl b)

/-- Types keep their ids when more is declared. -/
theorem Extends.typeId_eq (h : b.Extends more) {name : String} (hname : b.Declared name) :
    more.typeId name = b.typeId name := by
  obtain ⟨d, hd, rfl⟩ := hname
  have hfound : b.types.findIdx (·.name = d.name) < b.types.length :=
    List.findIdx_lt_length_of_exists ⟨d, hd, by simp⟩
  exact h.types.findIdx_eq_of_findIdx_lt_length hfound

/-- What is declared has no property less when more is declared. -/
theorem Extends.typeOf (h : b.Extends more) (hb : b.Consistent) (hd : d ∈ b.types) :
    (b.typeOf d).Within (more.typeOf d) where
  id := by rw [id_typeOf, id_typeOf, h.typeId_eq ⟨d, hd, rfl⟩]
  name := by rw [name_typeOf, name_typeOf]
  plural := by rw [plural_typeOf, plural_typeOf]
  primaryKey := by rw [primaryKey_typeOf, primaryKey_typeOf]
  keyKind := by rw [keyKind_typeOf, keyKind_typeOf]
  properties := by
    intro p hp
    cases p with
    | entity p => exact h.among.entity_mem_typeOf hp
    | navigation n =>
      obtain ⟨name, hname, htarget, hmem⟩ := h.among.exists_navigation_mem_typeOf hb hp
      rwa [h.typeId_eq hname, ← htarget] at hmem

/-- The model of declarations is within the model of those that they are extended to. -/
theorem Extends.within (h : b.Extends more) (hb : b.Distinct) (hmore : more.Distinct)
    (hmodel : b.finalize = .ok model) (hmodel' : more.finalize = .ok model') :
    model.Within model' := by
  have htypes := hb.types_of_finalize hmodel
  have htypes' := hmore.types_of_finalize hmodel'
  obtain ⟨hconsistent, rfl⟩ := hb.finalize_eq_ok_iff.mp hmodel
  obtain ⟨-, rfl⟩ := hmore.finalize_eq_ok_iff.mp hmodel'
  refine ⟨fun i t ht ↦ ?_, h.complexTypes.subset⟩
  rw [htypes, List.getElem?_map, Option.map_eq_some_iff] at ht
  obtain ⟨d, hd, rfl⟩ := ht
  obtain ⟨back, hback⟩ := h.types
  have hd' : more.types[i]? = some d := by
    rwa [← hback, List.getElem?_append_left (List.getElem?_eq_some_iff.mp hd).1]
  refine ⟨more.typeOf d, ?_, h.typeOf hconsistent (List.mem_of_getElem? hd)⟩
  rw [htypes', List.getElem?_map, hd', Option.map_some]

/-- A model is within every model that its declarations can be extended to. -/
theorem Grown.within (hb : b.Grown) (ds : List Declaration) (h : b.finalize = .ok model)
    (h' : (b.declareEach ds).finalize = .ok model') : model.Within model' :=
  (b.extends_declareEach ds).within hb.distinct (hb.declareEach ds).distinct h h'

end Builder

end SensorQuery
