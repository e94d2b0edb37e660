import SensorQuery.Proofs.Path.Element
import SensorQuery.Proofs.Path.RoundTrip

/-!
# Paths conform to the model

A path that was read says only what the model declares: keys stand behind the sets that they choose
from, navigation and properties behind entities whose types have them, and names and indices within
values that have such parts.
-/

namespace SensorQuery

/-! ### What a model allows -/

/-- The element is a part of a value of the one type, and its own value is of the other. -/
inductive PartOf (model : Registry) : PathElement → ValueType → ValueType → Prop where
  | item {type : ValueType} {i : UInt64} {parent : Nat} :
    PartOf model (.index i parent) (.list type) type
  | field {owner name : String} {c : ComplexType} {type : ValueType} {parent : Nat}
    (complex : model.complexType? owner = some c) (own : c.field? name = some type) :
    PartOf model (.custom name parent) (.complex owner) type
  | openField {owner name : String} {c : ComplexType} {parent : Nat}
    (complex : model.complexType? owner = some c) (other : c.field? name = none)
    (isOpen : c.isOpen = true) : PartOf model (.custom name parent) (.complex owner) .any
  | anyIndex {type : ValueType} {i : UInt64} {parent : Nat} (isOpen : type.isOpen = true) :
    PartOf model (.index i parent) type .any
  | anyName {type : ValueType} {name : String} {parent : Nat} (isOpen : type.isOpen = true) :
    PartOf model (.custom name parent) type .any

namespace ResourcePath

/-- The element at `i` is an entity of the type. -/
def EntityAt (model : Registry) (es : List PathElement) (i : Nat) (t : EntityType) : Prop :=
  model.entityType? t.name = some t ∧
    ∃ key navigation parent, es[i]? = some (.entity t.name key navigation parent)

/-- The element at `i` is a set of entities of the type. -/
def SetAt (model : Registry) (es : List PathElement) (i : Nat) (t : EntityType) : Prop :=
  model.entityType? t.name = some t ∧
    ∃ navigation parent, es[i]? = some (.entitySet t.name t.plural navigation parent)

/-- The element at `i` is a property of an entity, or a part of one, with a value of the type. -/
inductive ValueAt (model : Registry) (es : List PathElement) : Nat → ValueType → Prop where
  | property {i parent : Nat} {t : EntityType} {p : EntityProperty}
    (owner : EntityAt model es i t) (own : t.entityProperty? p.name = some p)
    (here : es[i + 1]? = some (.property p.name parent)) : ValueAt model es (i + 1) p.valueType
  | part {i : Nat} {whole type : ValueType} {e : PathElement} (owner : ValueAt model es i whole)
    (here : es[i + 1]? = some e) (part : PartOf model e whole type) : ValueAt model es (i + 1) type

/-- The path says only what the model declares. -/
structure Conforms (model : Registry) (p : ResourcePath) : Prop where
  /-- The path begins with a set at the root. -/
  root : ∃ t, model.entityType? t.name = some t ∧
    p.elements[0]? = some (.entitySet t.name t.plural none none)
  parent : ∀ i e, p.elements[i + 1]? = some e → e.parent? = some i
  /-- A key stands behind a set, and is a key of the set's type. -/
  keyed : ∀ i name k navigation parent,
    p.elements[i]? = some (.entity name (some k) navigation parent) →
      ∃ j t, i = j + 1 ∧ SetAt model p.elements j t ∧ t.name = name ∧ k.kind = t.keyKind ∧
        navigation = none
  /-- A set behind another element is reached by a navigation property of an entity. -/
  many : ∀ i name plural navigation parent,
    p.elements[i + 1]? = some (.entitySet name plural navigation parent) →
      ∃ t n target, EntityAt model p.elements i t ∧ t.navigationProperty? n.name = some n ∧
        n.toMany = true ∧ navigation = some n.name ∧ model.target? n = some target ∧
          name = target.name ∧ plural = target.plural
  /-- So is an entity without a key. -/
  one : ∀ i name navigation parent,
    p.elements[i]? = some (.entity name none navigation parent) →
      ∃ j t n target, i = j + 1 ∧ EntityAt model p.elements j t ∧
        t.navigationProperty? n.name = some n ∧ n.toMany = false ∧ navigation = some n.name ∧
          model.target? n = some target ∧ name = target.name
  /-- Only a key stands behind a set. -/
  behindSet : ∀ i e next, p.elements[i]? = some e → e.isEntitySet = true →
    p.elements[i + 1]? = some next → next.isKeyed = true
  property : ∀ i name parent, p.elements[i]? = some (.property name parent) →
    ∃ j t prop, i = j + 1 ∧ EntityAt model p.elements j t ∧ t.entityProperty? name = some prop
  /-- Names and indices stand behind properties and parts of properties that have such parts. -/
  part : ∀ i e, p.elements[i]? = some e →
    ((∃ name parent, e = .custom name parent) ∨ ∃ index parent, e = .index index parent) →
      ∃ j before whole type, i = j + 1 ∧ p.elements[j]? = some before ∧
        before.isResource = false ∧ ValueAt model p.elements j whole ∧ PartOf model e whole type
  main : ∃ e, p.mainElement? = some e ∧ e.entityType? = some p.mainType ∧
    ∀ i e, p.main < i → p.elements[i]? = some e → e.isResource = false
  reference : p.suffix = some .reference → ∃ e, p.elements.getLast? = some e ∧ e.isResource = true
  value : p.suffix = some .value → ∃ e, p.elements.getLast? = some e ∧ e.isResource = false

/-! ### What a run goes through -/

variable {model : Registry} {es back : List PathElement} {place next last : Place}
  {e : PathElement} {i : Nat} {t : EntityType} {type : ValueType}

-- The place behind the first elements is what the last of them stands for.
private def Behind (model : Registry) (es : List PathElement) : Nat → Place → Prop
  | 0, place => place = .root
  | _ + 1, .root => False
  | i + 1, .set t => SetAt model es i t
  | i + 1, .entity t => EntityAt model es i t
  | i + 1, .value type => ValueAt model es i type
  | i + 1, .anything => ∃ type, type.isOpen = true ∧ ValueAt model es i type

private theorem behind_ofValue (h : ValueAt model es i type) :
    Behind model es (i + 1) (.ofValue type) := by
  unfold Place.ofValue
  split
  · next hopen => exact ⟨type, hopen, h⟩
  · exact h

private theorem entityProperty?_of_own {p : EntityProperty}
    (own : t.property? p.name = some (.entity p)) : t.entityProperty? p.name = some p := by
  rw [EntityType.entityProperty?, own]
  rfl

private theorem navigationProperty?_of_own {n : NavigationProperty}
    (own : t.property? n.name = some (.navigation n)) : t.navigationProperty? n.name = some n := by
  rw [EntityType.navigationProperty?, own]
  rfl

-- An element leads to the place of what it stands for.
private theorem behind_of_leads (hmodel : model.Finalized) (he : es[i]? = some e)
    (h : Behind model es i place) (hlead : Leads model (i - 1) place e next) :
    Behind model es (i + 1) next := by
  cases i with
  | zero =>
    cases h
    cases hlead with
    | root _ set => exact ⟨hmodel.entityType? (Registry.plural_of_entitySet? set).1, _, _, he⟩
  | succ i =>
    cases hlead with
    | root => cases h
    | key => exact ⟨h.1, _, _, _, he⟩
    | property _ own => exact behind_ofValue (.property h (entityProperty?_of_own own) he)
    | many _ _ leads => exact ⟨hmodel.entityType? (Registry.mem_of_target? leads), _, _, he⟩
    | one _ _ leads => exact ⟨hmodel.entityType? (Registry.mem_of_target? leads), _, _, _, he⟩
    | item => exact behind_ofValue (.part h he .item)
    | field _ complex own => exact behind_ofValue (.part h he (.field complex own))
    | openField _ complex other isOpen =>
      exact ⟨.any, rfl, .part h he (.openField complex other isOpen)⟩
    | anyIndex =>
      obtain ⟨type, hopen, hvalue⟩ := h
      exact ⟨.any, rfl, .part hvalue he (.anyIndex hopen)⟩
    | anyName =>
      obtain ⟨type, hopen, hvalue⟩ := h
      exact ⟨.any, rfl, .part hvalue he (.anyName hopen)⟩

-- Every element of a run can be added at the place behind the elements in front of it.
private theorem exists_leads_of_run (hmodel : model.Finalized) (h : Run model place i back last)
    (hback : es.drop i = back) (hplace : Behind model es i place) {j : Nat} (hij : i ≤ j)
    (he : es[j]? = some e) :
    ∃ here next, Behind model es j here ∧ Leads model (j - 1) here e next := by
  induction h with
  | nil =>
    rw [List.drop_eq_nil_iff] at hback
    rw [List.getElem?_eq_none (by omega)] at he
    cases he
  | @cons place mid last i first back head tail ih =>
    have hfirst : es[i]? = some first := by
      rw [← Nat.add_zero i, ← List.getElem?_drop, hback]
      rfl
    rcases Nat.eq_or_lt_of_le hij with rfl | hlt
    · cases he.symm.trans hfirst
      exact ⟨place, mid, hplace, head⟩
    · refine ih ?_ (behind_of_leads hmodel hfirst hplace head) hlt
      rw [← List.drop_drop, hback]
      rfl

private theorem ValueAt.exists_element (h : ValueAt model es i type) :
    ∃ e, es[i]? = some e ∧ e.isResource = false := by
  cases h with
  | property owner own here => exact ⟨_, here, rfl⟩
  | part owner here part => exact ⟨_, here, by cases part <;> rfl⟩

variable {p : ResourcePath}

private theorem Formed.exists_leads (h : p.Formed model) (hmodel : model.Finalized)
    (he : p.elements[i]? = some e) :
    ∃ here next, Behind model p.elements i here ∧ Leads model (i - 1) here e next := by
  obtain ⟨last, hrun⟩ := h.exists_run
  exact exists_leads_of_run hmodel hrun rfl rfl (Nat.zero_le i) he

private theorem Behind.ne_root (h : Behind model es (i + 1) place) : place ≠ .root := by
  rintro rfl
  exact h

-- A name or an index is a part of the value behind which it stands.
private theorem exists_partOf (h : Behind model es i place)
    (hlead : Leads model (i - 1) place e next)
    (hpart : (∃ name parent, e = .custom name parent) ∨ ∃ index parent, e = .index index parent) :
    ∃ j whole type, i = j + 1 ∧ ValueAt model es j whole ∧ PartOf model e whole type := by
  have hresource : e.isResource = false ∧ ∀ name parent, e ≠ .property name parent := by
    obtain ⟨_, _, rfl⟩ | ⟨_, _, rfl⟩ := hpart <;> exact ⟨rfl, fun _ _ h ↦ by cases h⟩
  cases i with
  | zero =>
    cases h
    cases hlead
    cases hresource.1
  | succ i =>
    cases hlead with
    | root | key | many | one => cases hresource.1
    | property => exact absurd rfl (hresource.2 _ _)
    | item => exact ⟨i, _, _, rfl, h, .item⟩
    | field _ complex own => exact ⟨i, _, _, rfl, h, .field complex own⟩
    | openField _ complex other isOpen =>
      exact ⟨i, _, _, rfl, h, .openField complex other isOpen⟩
    | anyIndex =>
      obtain ⟨type, hopen, hvalue⟩ := h
      exact ⟨i, _, _, rfl, hvalue, .anyIndex hopen⟩
    | anyName =>
      obtain ⟨type, hopen, hvalue⟩ := h
      exact ⟨i, _, _, rfl, hvalue, .anyName hopen⟩

private theorem Formed.exists_root (h : p.Formed model) (hmodel : model.Finalized) :
    ∃ t, model.entityType? t.name = some t ∧
      p.elements[0]? = some (.entitySet t.name t.plural none none) := by
  obtain ⟨e, back, helements⟩ := List.exists_cons_of_ne_nil h.ne_nil
  have he : p.elements[0]? = some e := by rw [helements, List.getElem?_cons_zero]
  obtain ⟨here, next, rfl, hlead⟩ := h.exists_leads hmodel he
  have hset := behind_of_leads hmodel he rfl hlead
  cases hlead
  exact ⟨_, hset.1, he⟩

-- The set at the root is a resource, so there is a last one, which is the main element.
private theorem Formed.exists_main (h : p.Formed model) (hmodel : model.Finalized) :
    ∃ e, p.mainElement? = some e ∧ e.entityType? = some p.mainType ∧
      ∀ i e, p.main < i → p.elements[i]? = some e → e.isResource = false := by
  obtain ⟨t, -, hroot⟩ := h.exists_root hmodel
  cases hlast : lastIndex? PathElement.isResource p.elements with
  | none => cases lastIndex?_eq_none_iff.mp hlast _ (List.mem_of_getElem? hroot)
  | some i =>
    obtain ⟨front, e, back, helements, rfl, he, hback⟩ := exists_of_lastIndex? hlast
    have hmain : p.main = front.length := by
      rw [h.eq_ofElements, ofElements, hlast]
      rfl
    have hhere : p.mainElement? = some e := by
      rw [mainElement?, hmain, helements, List.getElem?_append_right (Nat.le_refl _), Nat.sub_self]
      rfl
    refine ⟨e, hhere, ?_, fun j e' hj he' ↦ hback e' ?_⟩
    · obtain ⟨name, hname⟩ := Option.isSome_iff_exists.mp he
      have htype : p.mainType = (p.mainElement?.bind PathElement.entityType?).getD "" := by
        rw [h.eq_ofElements]
        rfl
      rw [htype, hhere, Option.bind_some, hname, Option.getD_some]
    · rw [hmain] at hj
      rw [helements, List.getElem?_append_right (Nat.le_of_lt hj)] at he'
      obtain ⟨k, hk⟩ := Nat.exists_eq_add_of_lt hj
      rw [show j - front.length = k + 1 by omega, List.getElem?_cons_succ] at he'
      exact List.mem_of_getElem? he'

private theorem Behind.exists_set (h : Behind model es (i + 1) place) (he : es[i]? = some e)
    (hset : e.isEntitySet = true) : ∃ t, place = .set t := by
  have hresource {type : ValueType} (hvalue : ValueAt model es i type) : False := by
    obtain ⟨e', he', hvalue⟩ := hvalue.exists_element
    cases he.symm.trans he'
    cases e <;> cases hset
    cases hvalue
  cases place with
  | root => cases h
  | set t => exact ⟨t, rfl⟩
  | entity t =>
    obtain ⟨-, key, navigation, parent, hentity⟩ := h
    cases he.symm.trans hentity
    cases hset
  | value type => exact (hresource h).elim
  | anything =>
    obtain ⟨type, -, hvalue⟩ := h
    exact (hresource hvalue).elim

private theorem Formed.conforms (h : p.Formed model) (hmodel : model.Finalized) :
    p.Conforms model where
  root := h.exists_root hmodel
  parent i e he := by
    obtain ⟨here, next, hhere, hlead⟩ := h.exists_leads hmodel he
    exact hlead.parent?_eq hhere.ne_root
  keyed i name k navigation parent he := by
    obtain ⟨here, next, hhere, hlead⟩ := h.exists_leads hmodel he
    cases hlead with
    | key kind =>
      cases i with
      | zero => cases hhere
      | succ i => exact ⟨i, _, rfl, hhere, rfl, kind, rfl⟩
  many i name plural navigation parent he := by
    obtain ⟨here, next, hhere, hlead⟩ := h.exists_leads hmodel he
    cases hlead with
    | root => cases hhere
    | many _ own leads toMany =>
      exact ⟨_, _, _, hhere, navigationProperty?_of_own own, toMany, rfl, leads, rfl, rfl⟩
  one i name navigation parent he := by
    obtain ⟨here, next, hhere, hlead⟩ := h.exists_leads hmodel he
    cases hlead with
    | one _ own leads toOne =>
      cases i with
      | zero => cases hhere
      | succ i =>
        exact ⟨i, _, _, _, rfl, hhere, navigationProperty?_of_own own, toOne, rfl, leads, rfl⟩
  behindSet i e next he hset hnext := by
    obtain ⟨here, after, hhere, hlead⟩ := h.exists_leads hmodel hnext
    obtain ⟨t, rfl⟩ := hhere.exists_set he hset
    cases hlead
    rfl
  property i name parent he := by
    obtain ⟨here, next, hhere, hlead⟩ := h.exists_leads hmodel he
    cases hlead with
    | property _ own =>
      cases i with
      | zero => cases hhere
      | succ i => exact ⟨i, _, _, rfl, hhere, entityProperty?_of_own own⟩
  part i e he hpart := by
    obtain ⟨here, next, hhere, hlead⟩ := h.exists_leads hmodel he
    obtain ⟨j, whole, type, rfl, hvalue, hfits⟩ := exists_partOf hhere hlead hpart
    obtain ⟨before, hbefore, hresource⟩ := hvalue.exists_element
    exact ⟨j, before, whole, type, rfl, hbefore, hresource, hvalue, hfits⟩
  main := h.exists_main hmodel
  reference hsuffix := by
    have hfits := h.fits
    rwa [hsuffix] at hfits
  value hsuffix := by
    have hfits := h.fits
    rwa [hsuffix] at hfits

end ResourcePath

/-- Every path that is read in a finalized model conforms to the model. -/
theorem path_conforms (model : Registry) (hmodel : model.Finalized) (root : String)
    (version : Version) (t : String) (p : ResourcePath)
    (h : ResourcePath.parse model root version t = .ok p) : p.Conforms model :=
  (ResourcePath.formed_of_parse h).conforms hmodel

/-- The theorem at a path to a part of an exhibit's notes. -/
theorem museum_path_conforms : Museum.notePath.Conforms Museum.model :=
  path_conforms Museum.model Museum.finalized _ _ _ _ Museum.parse_notePath

end SensorQuery
