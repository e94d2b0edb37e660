import SensorQuery.Proofs.Model.Within

/-!
# Declarations in another order

Declarations are consistent in whatever order they stand, so they make a model in every order or in
none. The models list types and properties in different orders and give types different ids, but
each has all properties of the other, so both have the same property under every name
(`Property.Same`).
-/

namespace SensorQuery

/-- The properties of two models are the same, with the types that they lead to compared by name. -/
inductive Property.Same (model model' : Registry) : Property → Property → Prop where
  | entity (p : EntityProperty) : Same model model' (.entity p) (.entity p)
  | navigation {n : NavigationProperty} {id : Nat} {t t' : EntityType}
    (leads : model.types[n.target]? = some t) (leads' : model'.types[id]? = some t')
    (sameName : t'.name = t.name) :
    Same model model' (.navigation n) (.navigation { n with target := id })

private theorem Property.Same.name_eq {model model' : Registry} {p p' : Property}
    (h : Same model model' p p') : p'.name = p.name := by
  cases h <;> rfl

/-- Every type has its like in the other model, with the same properties. -/
def Registry.Matches (model model' : Registry) : Prop :=
  ∀ t ∈ model.types, ∀ p ∈ t.properties, ∃ t' ∈ model'.types, t'.name = t.name ∧
    t'.plural = t.plural ∧ ∃ p' ∈ t'.properties, p.Same model model' p'

namespace Builder

/-- The other builder has the same declarations of each sort, in another order. -/
structure Rearranged (b b' : Builder) : Prop where
  types : b.types.Perm b'.types
  properties : b.properties.Perm b'.properties
  complexTypes : b.complexTypes.Perm b'.complexTypes
  links : b.links.Perm b'.links

variable {b b' : Builder}

private theorem Rearranged.symm (h : b.Rearranged b') : b'.Rearranged b :=
  ⟨h.types.symm, h.properties.symm, h.complexTypes.symm, h.links.symm⟩

private theorem Rearranged.among (h : b.Rearranged b') : b.Among b' :=
  ⟨h.types.subset, h.properties.subset, h.complexTypes.subset, h.links.subset⟩

private theorem Rearranged.declared (h : b.Rearranged b') {name : String}
    (hname : b.Declared name) :
    b'.Declared name := by
  obtain ⟨d, hd, rfl⟩ := hname
  exact ⟨d, h.types.subset hd, rfl⟩

private theorem Rearranged.namesOn (h : b.Rearranged b') (d : EntityDeclaration) :
    (b.namesOn d).Perm (b'.namesOn d) := by
  have hproperties := (h.properties.filter (·.1 = d.name)).map (·.2.name)
  have hends := ((h.links.flatMap_right Link.ends).filter (·.entityType = d.name)).map (·.property)
  exact ((List.Perm.refl _).append hproperties).append hends

/-- Declarations that fit together do so in every order. -/
theorem Rearranged.consistent (h : b.Rearranged b') (hb : b.Consistent) : b'.Consistent where
  owners p hp := h.declared (hb.owners p (h.properties.symm.subset hp))
  ends l hl := (hb.ends l (h.links.symm.subset hl)).imp h.declared h.declared
  names d hd := (h.namesOn d).nodup_iff.mp (hb.names d (h.types.symm.subset hd))
  complexTypes p hp name hname := by
    have hp' : (∃ d ∈ b.types, p ∈ d.properties) ∨ ∃ owner, (owner, p) ∈ b.properties := by
      refine hp.imp ?_ ?_
      · rintro ⟨d, hd, hp⟩
        exact ⟨d, h.types.symm.subset hd, hp⟩
      · rintro ⟨owner, hp⟩
        exact ⟨owner, h.properties.symm.subset hp⟩
    obtain ⟨c, hc, hcname⟩ := hb.complexTypes p hp' name hname
    exact ⟨c, h.complexTypes.subset hc, hcname⟩

/-- There is a model of the declarations exactly if they are consistent. -/
theorem Distinct.exists_finalize_iff (hb : b.Distinct) :
    (∃ model, b.finalize = .ok model) ↔ b.Consistent := by
  simp only [hb.finalize_eq_ok_iff]
  exact ⟨fun ⟨_, h, _⟩ ↦ h, fun h ↦ ⟨_, h, rfl⟩⟩

private theorem Distinct.getElem?_typeId (hb : b.Distinct) {model : Registry}
    (h : b.finalize = .ok model) {d : EntityDeclaration} (hd : d ∈ b.types) :
    model.types[b.typeId d.name]? = some (b.typeOf d) := by
  obtain ⟨i, hi⟩ := List.getElem?_of_mem hd
  rw [hb.types_of_finalize h, hb.typeId_eq hi, List.getElem?_map, hi, Option.map_some]

/-- The models of the same declarations have the same types with the same properties. -/
theorem Rearranged.matches (h : b.Rearranged b') (hb : b.Distinct) (hb' : b'.Distinct)
    {model model' : Registry} (hmodel : b.finalize = .ok model)
    (hmodel' : b'.finalize = .ok model') : model.Matches model' := by
  intro t ht p hp
  have hconsistent := (hb.finalize_eq_ok_iff.mp hmodel).1
  rw [hb.types_of_finalize hmodel] at ht
  obtain ⟨d, hd, rfl⟩ := List.mem_map.mp ht
  have hmem : b'.typeOf d ∈ model'.types := by
    rw [hb'.types_of_finalize hmodel']
    exact List.mem_map_of_mem (h.types.subset hd)
  refine ⟨b'.typeOf d, hmem, by simp, by simp, ?_⟩
  cases p with
  | entity p => exact ⟨_, h.among.entity_mem_typeOf hp, .entity p⟩
  | navigation n =>
    obtain ⟨_, ⟨u, hu, rfl⟩, htarget, hn⟩ := h.among.exists_navigation_mem_typeOf hconsistent hp
    have hu' : model'.types[b'.typeId u.name]? = some (b'.typeOf u) :=
      hb'.getElem?_typeId hmodel' (h.types.subset hu)
    have hu₀ : model.types[n.target]? = some (b.typeOf u) := by
      rw [htarget]
      exact hb.getElem?_typeId hmodel hu
    exact ⟨_, hn, .navigation hu₀ hu' (by simp)⟩

end Builder

namespace Registry.Matches

variable {model model' : Registry} {name property : String} {p : Property}

private theorem exists_same (h : model.Matches model') (hmodel' : model'.Coherent)
    {x y : Option EntityType} (hx : ∀ t, x = some t → t ∈ model.types)
    (hy : ∀ t, x = some t → ∀ t' ∈ model'.types, t'.name = t.name → t'.plural = t.plural →
      y = some t') (hp : x.bind (·.property? property) = some p) :
    ∃ p', y.bind (·.property? property) = some p' ∧ p.Same model model' p' := by
  obtain ⟨t, ht, hp⟩ := Option.bind_eq_some_iff.mp hp
  obtain ⟨hmem, rfl⟩ := EntityType.mem_of_property? hp
  obtain ⟨t', ht', hname, hplural, p', hp', hsame⟩ := h t (hx t ht) p hmem
  refine ⟨p', ?_, hsame⟩
  rw [hy t ht t' ht' hname hplural, Option.bind_some]
  exact (hmodel'.property? t' ht' _ p').mpr ⟨hp', hsame.name_eq⟩

/-- What is found in the type of a name has its like in the type of that name. -/
theorem exists_of_entityType? (h : model.Matches model') (hmodel : model.Coherent)
    (hmodel' : model'.Coherent)
    (hp : (model.entityType? name).bind (·.property? property) = some p) :
    ∃ p', (model'.entityType? name).bind (·.property? property) = some p' ∧
      p.Same model model' p' := by
  refine h.exists_same hmodel' (fun t ht ↦ ((hmodel.entityType? _ _).mp ht).1) ?_ hp
  intro t ht t' ht' hname _
  exact (hmodel'.entityType? _ _).mpr ⟨ht', hname.trans ((hmodel.entityType? _ _).mp ht).2⟩

/-- What is found in the type of a set has its like in the type of that set. -/
theorem exists_of_entitySet? (h : model.Matches model') (hmodel : model.Coherent)
    (hmodel' : model'.Coherent)
    (hp : (model.entitySet? name).bind (·.property? property) = some p) :
    ∃ p', (model'.entitySet? name).bind (·.property? property) = some p' ∧
      p.Same model model' p' := by
  refine h.exists_same hmodel' (fun t ht ↦ ((hmodel.entitySet? _ _).mp ht).1) ?_ hp
  intro t ht t' ht' _ hplural
  exact (hmodel'.entitySet? _ _).mpr ⟨ht', hplural.trans ((hmodel.entitySet? _ _).mp ht).2⟩

end Registry.Matches

private theorem rel_of_forall_exists {α : Type} {R R' : α → α → Prop} {x y : Option α}
    (h : ∀ a, x = some a → ∃ b, y = some b ∧ R a b)
    (h' : ∀ b, y = some b → ∃ a, x = some a ∧ R' b a) : Option.Rel R x y := by
  cases x with
  | some a =>
    obtain ⟨b, rfl, hab⟩ := h a rfl
    exact .some hab
  | none =>
    cases y with
    | none => exact .none
    | some b =>
      obtain ⟨a, ha, -⟩ := h' b rfl
      cases ha

/-- Declarations make a model exactly if they are consistent: owners of properties and ends of links
are declared types, the names of the properties of each type are distinct, and so are declared the
complex types that properties refer to. So declarations in another order make a model as well, and
one that has the same properties under the same names. -/
theorem finalize_iff_consistent (b : Builder) (hb : b.Grown) :
    ((∃ model, b.finalize = .ok model) ↔ b.Consistent) ∧
    ∀ b' : Builder, b'.Grown → b.Rearranged b' →
      ((∃ model, b.finalize = .ok model) ↔ ∃ model', b'.finalize = .ok model') ∧
      ∀ model model', b.finalize = .ok model → b'.finalize = .ok model' → ∀ name property,
        Option.Rel (Property.Same model model')
            ((model.entityType? name).bind (·.property? property))
            ((model'.entityType? name).bind (·.property? property)) ∧
          Option.Rel (Property.Same model model')
            ((model.entitySet? name).bind (·.property? property))
            ((model'.entitySet? name).bind (·.property? property)) := by
  have hconsistent := hb.distinct.exists_finalize_iff
  refine ⟨hconsistent, fun b' hb' hsame ↦ ⟨?_, ?_⟩⟩
  · rw [hconsistent, hb'.distinct.exists_finalize_iff]
    exact ⟨hsame.consistent, hsame.symm.consistent⟩
  · intro model model' h h' name property
    have hmatches := hsame.matches hb.distinct hb'.distinct h h'
    have hmatches' := hsame.symm.matches hb'.distinct hb.distinct h' h
    have hmodel := hb.coherent h
    have hmodel' := hb'.coherent h'
    exact ⟨rel_of_forall_exists (fun _ ↦ hmatches.exists_of_entityType? hmodel hmodel')
        (fun _ ↦ hmatches'.exists_of_entityType? hmodel' hmodel),
      rel_of_forall_exists (fun _ ↦ hmatches.exists_of_entitySet? hmodel hmodel')
        (fun _ ↦ hmatches'.exists_of_entitySet? hmodel' hmodel)⟩

namespace Museum

/-- The museum, declared from its links to its complex types. -/
def backwards : Builder := Builder.empty.declareEach declarations.reverse

end Museum

/-- The theorem at the museum declared forwards and backwards. -/
theorem museum_is_consistent :
    (Builder.empty.declareEach Museum.declarations).Consistent ∧
      ∃ model', Museum.backwards.finalize = .ok model' ∧ ∀ name property,
        Option.Rel (Property.Same Museum.model model')
          ((Museum.model.entitySet? name).bind (·.property? property))
          ((model'.entitySet? name).bind (·.property? property)) := by
  have hgrown : (Builder.empty.declareEach Museum.declarations).Grown :=
    Builder.Grown.empty.declareEach _
  have hbackwards : Museum.backwards.Grown := Builder.Grown.empty.declareEach _
  have hsame : (Builder.empty.declareEach Museum.declarations).Rearranged Museum.backwards :=
    ⟨.swap _ _ _, .refl _, .refl _, .refl _⟩
  obtain ⟨hconsistent, hother⟩ := finalize_iff_consistent _ hgrown
  obtain ⟨hboth, hlookups⟩ := hother _ hbackwards hsame
  obtain ⟨model', hmodel'⟩ := hboth.mp ⟨Museum.model, rfl⟩
  exact ⟨hconsistent.mp ⟨Museum.model, rfl⟩, model', hmodel', fun name property ↦
    (hlookups Museum.model model' rfl hmodel' name property).2⟩

end SensorQuery
