import SensorQuery.Path.Resolve
import SensorQuery.Proofs.Fallible
import SensorQuery.Proofs.Model.Key
import SensorQuery.Proofs.Model.Names

/-!
# Runs over places

Resolving a segment adds elements one by one, each at the place that the one before it leads to.
`Leads` says what an element adds and `Run` chains elements, whatever segments they were written
in. A path is what a run from the root makes, with a suffix that fits its last element.
-/

namespace SensorQuery

open Fallible

/-- The name can be written as a segment that is resolved. -/
structure Segment.IsName (name : String) : Prop where
  writable : Writable name
  noSuffix : Suffix.ofName? name = none

open Segment (IsName)

/-- The element can be added at the place behind the element at `parent`, and leads to the other
place. -/
inductive Leads (model : Registry) (parent : Nat) : Place → PathElement → Place → Prop where
  | root {t : EntityType} (plural : IsName t.plural) (set : model.entitySet? t.plural = some t) :
    Leads model parent .root (.entitySet t.name t.plural none none) (.set t)
  | key {t : EntityType} {k : Key} (kind : k.kind = t.keyKind) :
    Leads model parent (.set t) (.entity t.name (some k) none (some parent)) (.entity t)
  | property {t : EntityType} {p : EntityProperty} (name : IsName p.name)
    (own : t.property? p.name = some (.entity p)) :
    Leads model parent (.entity t) (.property p.name parent) (.ofValue p.valueType)
  | many {t target : EntityType} {n : NavigationProperty} (name : IsName n.name)
    (own : t.property? n.name = some (.navigation n)) (leads : model.target? n = some target)
    (toMany : n.toMany = true) :
    Leads model parent (.entity t)
      (.entitySet target.name target.plural (some n.name) (some parent)) (.set target)
  | one {t target : EntityType} {n : NavigationProperty} (name : IsName n.name)
    (own : t.property? n.name = some (.navigation n)) (leads : model.target? n = some target)
    (toOne : n.toMany = false) :
    Leads model parent (.entity t) (.entity target.name none (some n.name) (some parent))
      (.entity target)
  | item {type : ValueType} {i : UInt64} :
    Leads model parent (.value (.list type)) (.index i parent) (.ofValue type)
  | field {owner name : String} {c : ComplexType} {type : ValueType} (isName : IsName name)
    (complex : model.complexType? owner = some c) (own : c.field? name = some type) :
    Leads model parent (.value (.complex owner)) (.custom name parent) (.ofValue type)
  | openField {owner name : String} {c : ComplexType} (isName : IsName name)
    (complex : model.complexType? owner = some c) (other : c.field? name = none)
    (isOpen : c.isOpen = true) :
    Leads model parent (.value (.complex owner)) (.custom name parent) .anything
  | anyIndex {i : UInt64} : Leads model parent .anything (.index i parent) .anything
  | anyName {name : String} (isName : IsName name)
    (noIndex : Resolution.indexOfName? name = none) :
    Leads model parent .anything (.custom name parent) .anything

namespace Leads

variable {model : Registry} {parent : Nat} {place next : Place} {e : PathElement}

/-- Only the first element has no parent. -/
theorem parent?_eq (h : Leads model parent place e next)
    (hroot : place ≠ .root) : e.parent? = some parent := by
  cases h <;> first | rfl | exact absurd rfl hroot

/-- Nothing leads back to the root. -/
theorem ne_root (h : Leads model parent place e next) : next ≠ .root := by
  cases h <;> simp [Place.ofValue] <;> split <;> simp

end Leads

/-- The elements can be added in order, from the place with `position` elements in front of it to
the other place. -/
inductive Run (model : Registry) : Place → (position : Nat) → List PathElement → Place → Prop where
  | nil (place : Place) (position : Nat) : Run model place position [] place
  | cons {place mid last : Place} {position : Nat} {e : PathElement} {es : List PathElement}
    (head : Leads model (position - 1) place e mid) (tail : Run model mid (position + 1) es last) :
    Run model place position (e :: es) last

namespace Run

variable {model : Registry} {place mid last : Place} {position : Nat} {es es' : List PathElement}

private theorem append (h : Run model place position es mid)
    (h' : Run model mid (position + es.length) es' last) :
    Run model place position (es ++ es') last := by
  induction h with
  | nil place position => exact h'
  | cons head _ ih =>
    refine .cons head (ih ?_)
    rwa [List.length_cons, Nat.add_comm _ 1, ← Nat.add_assoc] at h'

/-- A run passes through a place between any of its elements. -/
theorem exists_of_append (h : Run model place position (es ++ es') last) :
    ∃ mid, Run model place position es mid ∧ Run model mid (position + es.length) es' last := by
  induction es generalizing place position with
  | nil => exact ⟨place, .nil place position, h⟩
  | cons e es ih =>
    obtain ⟨⟩ | ⟨head, tail⟩ := h
    obtain ⟨mid, hmid, hlast⟩ := ih tail
    refine ⟨mid, .cons head hmid, ?_⟩
    rwa [List.length_cons, Nat.add_comm _ 1, ← Nat.add_assoc]

end Run

namespace Resolution

variable {model : Registry} {r r' r'' : Resolution} {s : Segment}

/-- The resolution `r'` comes from `r` by a run. -/
def Extends (model : Registry) (r r' : Resolution) : Prop :=
  ∃ es, r'.elements = r.elements ++ es ∧ Run model r.place r.elements.length es r'.place

private theorem Extends.refl (r : Resolution) : Extends model r r :=
  ⟨[], (List.append_nil _).symm, .nil _ _⟩

private theorem Extends.trans (h : Extends model r r') (h' : Extends model r' r'') :
    Extends model r r'' := by
  obtain ⟨es, hes, hrun⟩ := h
  obtain ⟨es', hes', hrun'⟩ := h'
  refine ⟨es ++ es', ?_, hrun.append ?_⟩
  · rw [hes', hes, List.append_assoc]
  · rwa [hes, List.length_append] at hrun'

private theorem Extends.push {e : PathElement} {place : Place}
    (h : Leads model r.parent r.place e place) :
    Extends model r (r.push e place) :=
  ⟨[e], rfl, .cons h (.nil _ _)⟩

private theorem extends_of_enterSet {t : EntityType} {key : Option String}
    (hplace : r.place = .set t) (h : r.enterSet t key = .ok r') : Extends model r r' := by
  cases key with
  | none =>
    cases h
    rw [← hplace]
    exact .refl r
  | some key =>
    unfold enterSet at h
    simp only at h
    split at h
    · next k hk =>
      cases h
      refine .push ?_
      rw [hplace]
      exact .key (KeyKind.kind_of_parse hk)
    · cases h

private theorem exists_push_of_pushIndex (model : Registry) {name : String} {i : UInt64}
    (h : r.pushIndex name i = .ok r') :
    ∃ place, Leads model r.parent r.place (.index i r.parent) place ∧
      r' = r.push (.index i r.parent) place := by
  unfold pushIndex at h
  split at h
  · next hplace =>
    cases h
    refine ⟨.anything, ?_, rfl⟩
    rw [hplace]
    exact .anyIndex
  · next type hplace =>
    cases h
    exact ⟨_, hplace ▸ .item, rfl⟩
  · cases h

-- An element is added, and perhaps an entity behind a set.
private def Pushes (model : Registry) (r r' : Resolution) : Prop :=
  ∃ e place, Leads model r.parent r.place e place ∧ Extends model (r.push e place) r'

private theorem pushes_of_push {e : PathElement} {place : Place}
    (h : Leads model r.parent r.place e place) : Pushes model r (r.push e place) :=
  ⟨e, place, h, .refl _⟩

private theorem pushes_of_rootStep (hplace : r.place = .root) (hname : IsName s.name)
    (h : r.rootStep model s = .ok r') : Pushes model r r' := by
  unfold rootStep at h
  split at h
  · cases h
  · next t ht =>
    have hplural := (Registry.plural_of_entitySet? ht).2
    rw [← hplural] at ht hname
    exact ⟨_, _, hplace ▸ .root hname ht, extends_of_enterSet rfl h⟩

private theorem pushes_of_entityStep {t : EntityType} (hplace : r.place = .entity t)
    (hname : IsName s.name) (h : r.entityStep model t s = .ok r') : Pushes model r r' := by
  unfold entityStep at h
  split at h
  · next p hp =>
    obtain ⟨-, -, h⟩ := bind_eq_ok.mp h
    cases h
    have hown := (EntityType.mem_of_property? hp).2
    rw [← hown] at hp hname
    exact pushes_of_push (hplace ▸ .property hname hp)
  · next n hn =>
    have hown := (EntityType.mem_of_property? hn).2
    rw [← hown] at hn hname
    split at h
    · next target htarget =>
      split at h
      · next hmany =>
        exact ⟨_, _, hplace ▸ .many hname hn htarget hmany, extends_of_enterSet rfl h⟩
      · next hone =>
        obtain ⟨-, -, h⟩ := bind_eq_ok.mp h
        cases h
        exact pushes_of_push (hplace ▸ .one hname hn htarget (by simpa using hone))
    · cases h
  · cases h

private theorem pushes_of_valueStep {type : ValueType} {name : String}
    (hplace : r.place = .value type) (hname : IsName name)
    (h : r.valueStep model type name = .ok r') : Pushes model r r' := by
  unfold valueStep at h
  split at h
  · split at h
    · next i hi =>
      obtain ⟨place, hlead, rfl⟩ := exists_push_of_pushIndex model h
      exact pushes_of_push hlead
    · cases h
  · next owner =>
    split at h
    · cases h
    · next c hc =>
      split at h
      · next field hfield =>
        cases h
        exact pushes_of_push (hplace ▸ .field hname hc hfield)
      · next hother =>
        split at h
        · next hopen =>
          cases h
          exact pushes_of_push (hplace ▸ .openField hname hc hother hopen)
        · cases h
  · cases h

private theorem pushes_anythingStep {name : String} (hplace : r.place = .anything)
    (hname : IsName name) : Pushes model r (r.anythingStep name) := by
  unfold anythingStep
  split
  · refine pushes_of_push ?_
    rw [hplace]
    exact .anyIndex
  · next hindex =>
    refine pushes_of_push ?_
    rw [hplace]
    exact .anyName hname hindex

/-- Resolving a name adds an element, and perhaps an entity behind a set. -/
theorem exists_push_of_nameStep (hname : IsName s.name) (h : r.nameStep model s = .ok r') :
    ∃ e place, Leads model r.parent r.place e place ∧ Extends model (r.push e place) r' := by
  unfold nameStep at h
  split at h
  · next hplace => exact pushes_of_rootStep hplace hname h
  · cases h
  · next t hplace => exact pushes_of_entityStep hplace hname h
  · next type hplace =>
    obtain ⟨-, -, h⟩ := bind_eq_ok.mp h
    exact pushes_of_valueStep hplace hname h
  · next hplace =>
    obtain ⟨-, -, h⟩ := bind_eq_ok.mp h
    cases h
    exact pushes_anythingStep hplace hname

/-- Resolving a segment adds at least one element. -/
theorem exists_push_of_step (hname : IsName s.name) (h : r.step model s = .ok r') :
    ∃ e place, Leads model r.parent r.place e place ∧ Extends model (r.push e place) r' := by
  obtain ⟨named, hnamed, h⟩ := bind_eq_ok.mp h
  obtain ⟨e, place, hlead, hext⟩ := exists_push_of_nameStep hname hnamed
  refine ⟨e, place, hlead, ?_⟩
  refine foldlM_keeps (P := Extends model (r.push e place)) ?_ hext h
  intro r₁ i r₂ _ hr₁ hpush
  obtain ⟨place', hlead', rfl⟩ := exists_push_of_pushIndex model hpush
  exact hr₁.trans (.push hlead')

end Resolution

/-! ### Suffixes -/

/-- The suffix may stand behind the elements: references behind a resource, a value behind
anything else. -/
def Suffix.Fits (elements : List PathElement) : Option Suffix → Prop
  | none => True
  | some .reference => ∃ e ∈ elements.getLast?, e.isResource = true
  | some .value => ∃ e ∈ elements.getLast?, e.isResource = false

private theorem Suffix.Fits.ne_nil {elements : List PathElement} {suffix : Suffix}
    (h : Fits elements (some suffix)) : elements ≠ [] := by
  rintro rfl
  cases suffix <;> simp [Fits] at h

namespace Resolution

variable {model : Registry} {r r' : Resolution}

/-- A suffix passes at the end of a path, without a key and indices, where it fits the elements. -/
theorem checkSuffix_eq_ok {s : Segment} {isLast : Bool} {suffix : Suffix} :
    r.checkSuffix s isLast suffix = .ok () ↔
      isLast = true ∧ s.key = none ∧ s.indices = [] ∧ Suffix.Fits r.elements (some suffix) := by
  unfold checkSuffix
  cases isLast with
  | false => simp
  | true =>
    obtain ⟨name, key, indices⟩ := s
    cases key with
    | some key => simp
    | none =>
      cases indices with
      | cons i indices => simp
      | nil =>
        cases suffix <;> cases hlast : r.elements.getLast? <;> simp [Suffix.Fits, hlast]

/-- Segments are resolved by a run, and a suffix at the end fits. There are elements if there are
segments. -/
theorem extends_of_steps {segments : List Segment} {suffix : Option Suffix}
    (hnames : ∀ s ∈ segments, Segment.Writable s.name)
    (h : r.steps model segments = .ok (r', suffix)) :
    Extends model r r' ∧ Suffix.Fits r'.elements suffix ∧ (segments ≠ [] → r'.elements ≠ []) := by
  induction segments generalizing r with
  | nil =>
    cases h
    exact ⟨.refl _, trivial, absurd rfl⟩
  | cons s segments ih =>
    obtain ⟨hs, hsegments⟩ := List.forall_mem_cons.mp hnames
    rw [steps] at h
    split at h
    · obtain ⟨_, hcheck, h⟩ := bind_eq_ok.mp h
      cases h
      obtain ⟨-, -, -, hfits⟩ := checkSuffix_eq_ok.mp hcheck
      exact ⟨.refl _, hfits, fun _ ↦ hfits.ne_nil⟩
    · next hsuffix =>
      obtain ⟨next, hnext, h⟩ := bind_eq_ok.mp h
      obtain ⟨e, place, hlead, hext⟩ := exists_push_of_step ⟨hs, hsuffix⟩ hnext
      obtain ⟨hmore, hfits, -⟩ := ih hsegments h
      refine ⟨((Extends.push hlead).trans hext).trans hmore, hfits, fun _ ↦ ?_⟩
      obtain ⟨es, hes, -⟩ := hext.trans hmore
      rw [hes]
      simp [push]

end Resolution

namespace ResourcePath

variable {model : Registry} {root : String} {version : Version} {raw : String}

/-- A path is read from its segments, if they are resolved. -/
theorem parse_of_steps {segments : List Segment} {r : Resolution} {suffix : Option Suffix}
    (hpath : Segment.ofPath? raw = some segments)
    (hsteps : Resolution.start.steps model segments = .ok (r, suffix)) (root : String)
    (version : Version) :
    parse model root version raw = .ok (ofElements r.elements suffix root version raw) := by
  have hraw : ¬ (raw = "" ∨ raw = "/") := by
    rintro (rfl | rfl) <;> cases hpath
  rw [parse, if_neg hraw, hpath]
  simp only [hsteps, ok_bind]
  rfl

/-- The segments of a path that is read are resolved. -/
theorem exists_steps_of_parse {p : ResourcePath} (h : parse model root version raw = .ok p) :
    ∃ (segments : List Segment) (r : Resolution) (suffix : Option Suffix),
      Segment.ofPath? raw = some segments ∧
        Resolution.start.steps model segments = .ok (r, suffix) ∧
          p = ofElements r.elements suffix root version raw := by
  unfold parse at h
  split at h
  · cases h
  · split at h
    · cases h
    · next segments hsegments =>
      obtain ⟨⟨r, suffix⟩, hsteps, h⟩ := bind_eq_ok.mp h
      cases h
      exact ⟨segments, r, suffix, hsegments, hsteps, rfl⟩

end ResourcePath

end SensorQuery
