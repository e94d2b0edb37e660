import SensorQuery.Proofs.Model.Assembled
import SensorQuery.Proofs.Model.Names
import SensorQuery.Proofs.Path.Written
import SensorQuery.Proofs.Query.Hops
import SensorQuery.Proofs.Query.Validation

/-!
# Property paths as resource paths

Where a property path leads to from entities of a type, a resource path leads to that names one
entity of the type and goes on with the same steps. Names are sorted by the whole model before a
property path is checked step by step against one type, and a resource path is checked step by step
at once. So a name may be sorted as that of a navigation property though it names a part of a value.
-/

namespace SensorQuery

open Fallible

/-! ### Where steps go -/

/-- A step of a property path that leads into values or to declared entities, sorted by the
model. -/
inductive Sorts (model : Registry) :
    PropertyPath.Position → RawStep → PathStep → PropertyPath.Position → Prop where
  | navigation {name : String} : Sorts model .entity (.name name) (.navigation name) .entity
  | property {name : String} (other : model.isNavigationName name = false) :
    Sorts model .entity (.name name) (.property name) .value
  | custom {name : String} : Sorts model .value (.name name) (.custom name) .value
  | index {i : UInt64} : Sorts model .value (.index i) (.index i) .value

/-- Steps that are sorted from a position and lead from one target to another. -/
inductive Goes (model : Registry) :
    PropertyPath.Position → Target → List RawStep → PropertyPath.Position → Target → Prop where
  | nil (position : PropertyPath.Position) (target : Target) :
    Goes model position target [] position target
  | cons {position next last : PropertyPath.Position} {target mid X : Target} {raw : RawStep}
    {raws : List RawStep} {step : PathStep} (sorts : Sorts model position raw step next)
    (takes : target.step model step = .ok mid) (more : Goes model next mid raws last X) :
    Goes model position target (raw :: raws) last X

variable {ctx : Context} {model : Registry} {position next last : PropertyPath.Position}
  {target X : Target} {raw : RawStep} {raws raws' : List RawStep} {step : PathStep}

private theorem sorts_of_classifyStep (hlinks : ctx.customLinks = false)
    (h : PropertyPath.classifyStep ctx position raw = .ok (step, next))
    (hkey : step ≠ .primaryKey) : Sorts ctx.model position raw step next := by
  cases PropertyPath.classifyStep_eq_ok_iff.mp h with
  | primaryKey => exact absurd rfl hkey
  | navigation => exact .navigation
  | property notAlias notLink value => exact .property notLink
  | customLink on =>
    rw [hlinks] at on
    cases on
  | custom => exact .custom
  | index i => exact .index

-- The steps of a path that resolves go from the type to the target, if the alias of the key is not
-- among them.
private theorem goes_of_resolve (hlinks : ctx.customLinks = false) {steps : List PathStep}
    (h : PropertyPath.classify ctx position raws = .ok steps) (hkey : .primaryKey ∉ steps)
    (hresolve : steps.foldlM (Target.step ctx.model) target = .ok X) :
    ∃ last, Goes ctx.model position target raws last X := by
  induction raws generalizing position target steps with
  | nil =>
    cases h
    cases hresolve
    exact ⟨position, .nil _ _⟩
  | cons raw raws ih =>
    obtain ⟨⟨step, next⟩, more, hstep, hmore, rfl⟩ := PropertyPath.classify_cons h
    rw [List.foldlM_cons] at hresolve
    obtain ⟨mid, hmid, hresolve⟩ := bind_eq_ok.mp hresolve
    obtain ⟨last, hlast⟩ := ih hmore (List.not_mem_of_not_mem_cons hkey) hresolve
    exact ⟨last, .cons (sorts_of_classifyStep hlinks hstep (Ne.symm (List.ne_of_not_mem_cons hkey)))
      hmid hlast⟩

private theorem Goes.exists_of_append (h : Goes model position target (raws ++ raws') last X) :
    ∃ next mid, Goes model position target raws next mid ∧ Goes model next mid raws' last X := by
  induction raws generalizing position target with
  | nil => exact ⟨position, target, .nil _ _, h⟩
  | cons raw raws ih =>
    cases h with
    | cons sorts takes more =>
      obtain ⟨next, mid, hmid, hlast⟩ := ih more
      exact ⟨next, mid, .cons sorts takes hmid, hlast⟩

/-! ### Values -/

/-- The value that a property path has arrived at is where a resource path goes on. -/
inductive Meets : Target → Place → Prop where
  | value (type : ValueType) : Meets (.value type) (.value type)
  | anything : Meets .anything .anything

/-- Values of one type meet in both sorts of paths. -/
theorem meets_ofValue (type : ValueType) : Meets (.ofValue type) (.ofValue type) := by
  unfold Target.ofValue Place.ofValue
  split
  · exact .anything
  · exact .value type

namespace Resolution

variable {r : Resolution}

/-- The resolution has arrived at the value, which its last element stands for. -/
structure AtValue (target : Target) (r : Resolution) : Prop where
  meets : Meets target r.place
  last : ∃ e, r.elements.getLast? = some e ∧ e.isResource = false

private theorem atValue_push {e : PathElement} {place : Place} (h : Meets target place)
    (he : e.isResource = false) : AtValue target (r.push e place) :=
  ⟨h, e, List.getLast?_concat, he⟩

private theorem AtValue.exists_pushIndex (h : r.AtValue target) {i : UInt64} {mid : Target}
    (hstep : target.step model (.index i) = .ok mid) (name : String) :
    ∃ r', r.pushIndex name i = .ok r' ∧ r'.AtValue mid := by
  obtain ⟨elements, place⟩ := r
  obtain ⟨hmeets, -⟩ := h
  cases hmeets with
  | value type =>
    cases type with
    | list element =>
      cases hstep
      exact ⟨_, rfl, atValue_push (meets_ofValue element) rfl⟩
    | _ => cases hstep
  | anything =>
    cases hstep
    exact ⟨_, rfl, atValue_push .anything rfl⟩

/-- A field of a complex type leads to the same value in both sorts of paths, and is unknown to both
or to neither. -/
theorem valueStep_complex (model : Registry) (r : Resolution) (owner name : String) :
    (∃ mid place, Target.fieldStep model owner name = .ok mid ∧ Meets mid place ∧
      r.valueStep model (.complex owner) name = .ok (r.push (.custom name r.parent) place)) ∨
    ∃ owner', Target.fieldStep model owner name = .error (.unknownProperty owner' name) ∧
      r.valueStep model (.complex owner) name = .error (.unknownProperty owner' name) := by
  unfold Target.fieldStep valueStep
  cases hcomplex : model.complexType? owner with
  | none => exact .inr ⟨owner, rfl, by simp only [hcomplex]⟩
  | some c =>
    simp only [hcomplex]
    cases hfield : c.field? name with
    | some field => exact .inl ⟨_, _, rfl, meets_ofValue field, rfl⟩
    | none =>
      cases hopen : c.isOpen with
      | false => exact .inr ⟨c.name, rfl, rfl⟩
      | true => exact .inl ⟨_, _, rfl, .anything, rfl⟩

-- A name leads to the same value in both sorts of paths, whatever it was sorted as.
private theorem AtValue.exists_nameStep (h : r.AtValue target) {w : List Char} (hne : w ≠ [])
    (sorts : Sorts model position (RawStep.ofName w) step next) {mid : Target}
    (takes : target.step model step = .ok mid) (indices : List UInt64) :
    ∃ r', r.nameStep model ⟨String.ofList w, none, indices⟩ = .ok r' ∧ r'.AtValue mid := by
  have hindex := RawStep.indexOfName?_ofList hne
  have hlast := h
  obtain ⟨elements, place⟩ := r
  obtain ⟨hmeets, -⟩ := h
  rcases RawStep.ofName_eq w with hraw | ⟨i, hraw⟩ <;> rw [hraw] at sorts hindex
  · cases hmeets with
    | value type =>
      cases sorts with
      | navigation => cases type <;> cases takes
      | property | custom =>
        cases type with
        | complex owner =>
          obtain ⟨_, place, hmid, hplace, hstep⟩ | ⟨_, hunknown, -⟩ :=
            valueStep_complex model ⟨elements, .value (.complex owner)⟩ owner (String.ofList w)
          · cases hmid.symm.trans takes
            exact ⟨_, hstep, atValue_push hplace rfl⟩
          · cases hunknown.symm.trans takes
        | _ => cases takes
    | anything =>
      have hanything : mid = .anything := by cases sorts <;> cases takes <;> rfl
      obtain rfl := hanything
      refine ⟨_, rfl, ?_⟩
      rw [anythingStep, hindex]
      exact atValue_push .anything rfl
  · -- A name of digits does what the index in brackets does.
    cases sorts with
    | index =>
      obtain ⟨r', hpush, hr'⟩ := hlast.exists_pushIndex takes (String.ofList w)
      refine ⟨r', ?_, hr'⟩
      cases hmeets with
      | value type =>
        cases type with
        | list element =>
          rw [← hpush]
          simp only [nameStep, valueStep, hindex]
          rfl
        | _ => cases takes
      | anything =>
        rw [← hpush]
        simp only [nameStep, anythingStep, hindex]
        rfl

private theorem AtValue.exists_indices (h : r.AtValue target) {indices : List UInt64}
    (hgoes : Goes model position target (indices.map .index) last X) (name : String) :
    ∃ r', indices.foldlM (pushIndex name) r = .ok r' ∧ r'.AtValue X := by
  induction indices generalizing r target position with
  | nil =>
    cases hgoes
    exact ⟨r, rfl, h⟩
  | cons i indices ih =>
    cases hgoes with
    | cons sorts takes more =>
      cases sorts
      obtain ⟨r', hpush, hr'⟩ := h.exists_pushIndex takes name
      rw [List.foldlM_cons, hpush, ok_bind]
      exact ih hr' more

private theorem AtValue.exists_step (h : r.AtValue target) {s : WrittenStep}
    (hgoes : Goes model position target s.raws last X) :
    ∃ r', r.step model (s.segment none) = .ok r' ∧ r'.AtValue X := by
  cases hgoes with
  | cons sorts takes more =>
    obtain ⟨named, hnamed, hvalue⟩ := h.exists_nameStep s.ne_nil sorts takes s.indices
    obtain ⟨r', hindices, hr'⟩ := hvalue.exists_indices more (String.ofList s.name)
    refine ⟨r', ?_, hr'⟩
    rw [step]
    exact (congrArg (· >>= _) hnamed).trans hindices

/-! ### Entities -/

/-- The last element of the resolution is what the target says. -/
def Arrives (model : Registry) (X : Target) (r : Resolution) : Prop :=
  ∃ e, r.elements.getLast? = some e ∧
    match X with
    | .entity t => t ∈ model.types ∧ e.entityType? = some t.name
    | _ => e.isResource = false

private theorem AtValue.arrives (h : r.AtValue target) : r.Arrives model target := by
  obtain ⟨elements, place⟩ := r
  obtain ⟨hmeets, e, he, hvalue⟩ := h
  cases hmeets <;> exact ⟨e, he, hvalue⟩

/-- The resolution goes on with these steps, and arrives at the target. -/
def Addresses (model : Registry) (r : Resolution) (steps : List (List Char)) (X : Target) : Prop :=
  ∃ (written : List (List Char × Segment)) (r' : Resolution), written.map (·.1) = steps ∧
    (∀ x ∈ written, Segment.Reads x.1 x.2) ∧
      r.steps model (written.map (·.2)) = .ok (r', none) ∧ r'.Arrives model X

private theorem addresses_nil (h : r.Arrives model X) : r.Addresses model [] X :=
  ⟨[], r, rfl, (fun x hx ↦ by cases hx), rfl, h⟩

private theorem addresses_cons {s : List Char} {segment : Segment}
    (hreads : Segment.Reads s segment)
    (hsuffix : Suffix.ofName? segment.name = none) {r' : Resolution}
    (hstep : r.step model segment = .ok r') {steps : List (List Char)}
    (h : r'.Addresses model steps X) : r.Addresses model (s :: steps) X := by
  obtain ⟨written, last, rfl, hwritten, hsteps, harrives⟩ := h
  refine ⟨(s, segment) :: written, last, rfl, List.forall_mem_cons.mpr ⟨hreads, hwritten⟩, ?_,
    harrives⟩
  rw [List.map_cons, Resolution.steps, hsuffix]
  exact (congrArg (· >>= _) hstep).trans hsteps

private theorem AtValue.addresses (h : r.AtValue target) {written : List WrittenStep}
    (hgoes : Goes model position target (written.flatMap WrittenStep.raws) last X) :
    r.Addresses model (written.map WrittenStep.text) X := by
  induction written generalizing r target position with
  | nil =>
    cases hgoes
    exact addresses_nil h.arrives
  | cons s written ih =>
    rw [List.flatMap_cons] at hgoes
    obtain ⟨next, mid, hstep, hmore⟩ := hgoes.exists_of_append
    obtain ⟨r', hr', hvalue⟩ := h.exists_step hstep
    exact addresses_cons s.reads_text s.isName.noSuffix hr' (ih hvalue hmore)

end Resolution

/-- The name of a step, without the indices behind it. -/
def stepName (s : List Char) : String := String.ofList (s.takeWhile (· != '['))

/-- From entities of the type, the second list of steps is the first with a key, of the kind of
their type, behind each step that leads to several entities. The last step may stand without. -/
inductive WithKeys (model : Registry) :
    EntityType → List (List Char) → List (List Char) → Prop where
  | nil (t : EntityType) : WithKeys model t [] []
  | many {t target : EntityType} {n : NavigationProperty} {s : List Char}
    {steps steps' : List (List Char)} {k : Key} (own : t.navigationProperty? (stepName s) = some n)
    (toMany : n.toMany = true) (leads : model.target? n = some target)
    (kind : k.kind = target.keyKind) (more : WithKeys model target steps steps') :
    WithKeys model t (s :: steps) ((s ++ PathElement.keyText k) :: steps')
  | set {t : EntityType} {n : NavigationProperty} {s : List Char}
    (own : t.navigationProperty? (stepName s) = some n) (toMany : n.toMany = true) :
    WithKeys model t [s] [s]
  | one {t target : EntityType} {n : NavigationProperty} {s : List Char}
    {steps steps' : List (List Char)} (own : t.navigationProperty? (stepName s) = some n)
    (toOne : n.toMany = false) (leads : model.target? n = some target)
    (more : WithKeys model target steps steps') : WithKeys model t (s :: steps) (s :: steps')
  | value {t : EntityType} {s : List Char} {steps : List (List Char)}
    (other : t.navigationProperty? (stepName s) = none) : WithKeys model t (s :: steps) (s :: steps)

private theorem WrittenStep.stepName_text (s : WrittenStep) :
    stepName s.text = String.ofList s.name := by
  have hname : ∀ c ∈ s.name, (c != '[') = true := by
    intro c hc
    rw [bne_iff_ne]
    rintro rfl
    exact absurd (s.isNameChar_of_mem '[' hc).1 (by decide)
  have hstops : Scanner.Stops (· != '[') s.indexText := by
    have hstops := s.writes.stops (p := (· != '[')) (by decide) (Scanner.stops_nil _)
    rwa [List.append_nil] at hstops
  rw [stepName, text, Scanner.takeWhile_append_of_stops hname hstops]

namespace Resolution

variable {r : Resolution} {t : EntityType}

/-- The resolution has arrived at one entity of the type. -/
structure AtEntity (model : Registry) (t : EntityType) (r : Resolution) : Prop where
  place : r.place = .entity t
  mem : t ∈ model.types
  last : ∃ e, r.elements.getLast? = some e ∧ e.entityType? = some t.name

private theorem AtEntity.arrives (h : r.AtEntity model t) : r.Arrives model (.entity t) := by
  obtain ⟨-, ht, e, he, htype⟩ := h
  exact ⟨e, he, ht, htype⟩

-- From an entity, a step is a property of its type, and leads where the property leads.
private theorem exists_own_of_sorts (ht : t ∈ model.types) {w : List Char}
    (sorts : Sorts model .entity (RawStep.ofName w) step next)
    (takes : (Target.entity t).step model step = .ok X) :
    (∃ n target, t.property? (String.ofList w) = some (.navigation n) ∧
      model.target? n = some target ∧ X = .entity target ∧ next = .entity) ∨
    ∃ p, t.property? (String.ofList w) = some (.entity p) ∧ X = .ofValue p.valueType := by
  rcases RawStep.ofName_eq w with hraw | ⟨i, hraw⟩ <;> rw [hraw] at sorts
  · obtain ⟨missing, htakes⟩ :
        ∃ missing, Target.entityStep model t (String.ofList w) missing = .ok X := by
      cases sorts <;> exact ⟨_, takes⟩
    rcases Target.entityStep_eq_ok_iff.mp htakes with ⟨n, target, hown, hleads, rfl⟩ | hentity
    · refine .inl ⟨n, target, hown, hleads, rfl, ?_⟩
      cases sorts with
      | navigation => rfl
      | property other =>
        obtain ⟨hmem, hname⟩ := EntityType.mem_of_property? hown
        rw [Registry.isNavigationName_iff.mpr ⟨t, ht, n, hmem, hname⟩] at other
        cases other
    · exact .inr hentity
  · cases sorts

-- Behind a step that leads to entities no index can stand.
private theorem indices_eq_nil {s : WrittenStep}
    (hgoes : Goes model .entity (.entity t) (s.indices.map .index ++ raws) last X) :
    s.indices = [] ∧ s.indexText = [] := by
  have hindices : s.indices = [] := by
    cases hindices : s.indices with
    | nil => rfl
    | cons i indices =>
      rw [hindices] at hgoes
      cases hgoes with
      | cons sorts => cases sorts
  refine ⟨hindices, ?_⟩
  have hwrites := s.writes
  rw [hindices] at hwrites
  generalize s.indexText = u at hwrites ⊢
  cases hwrites
  rfl

private theorem reads_keyed {s : WrittenStep} (h : s.indexText = []) (k : Key) :
    Segment.Reads (s.text ++ PathElement.keyText k) (s.segment (some k)) := by
  have hread := s.reads (some k)
  simpa [WrittenStep.text, WrittenStep.segment, h, Segment.keyText, PathElement.keyText] using hread

private theorem exists_target_of_goes (ht : t ∈ model.types) {s : WrittenStep}
    {n : NavigationProperty} (own : t.navigationProperty? (stepName s.text) = some n)
    (hgoes : Goes model .entity (.entity t) (s.raws ++ raws) last X) :
    ∃ target, t.property? (String.ofList s.name) = some (.navigation n) ∧
      model.target? n = some target ∧ s.indices = [] ∧ s.indexText = [] ∧
        Goes model .entity (.entity target) raws last X := by
  rw [s.stepName_text, EntityType.navigationProperty?] at own
  cases hgoes with
  | cons sorts takes more =>
    obtain ⟨n', target, hown, hleads, rfl, rfl⟩ | ⟨p, hown, -⟩ := exists_own_of_sorts ht sorts takes
    · rw [hown] at own
      cases own
      obtain ⟨hindices, htext⟩ := indices_eq_nil more
      rw [hindices] at more
      exact ⟨target, hown, hleads, hindices, htext, more⟩
    · rw [hown] at own
      cases own

section Own

variable {name : String} {n : NavigationProperty} {u : EntityType}

private theorem AtEntity.exists_keyed (h : r.AtEntity model t)
    (own : t.property? name = some (.navigation n)) (leads : model.target? n = some u)
    (toMany : n.toMany = true) {k : Key} (kind : k.kind = u.keyKind) :
    ∃ r', r.step model ⟨name, some (String.ofList k.text), []⟩ = .ok r' ∧ r'.AtEntity model u := by
  have hparse := k.parse_text
  rw [kind] at hparse
  obtain ⟨elements, place⟩ := r
  obtain ⟨rfl, -, -⟩ := h
  simp only [step, nameStep, entityStep, own, leads, toMany, ite_true, enterSet, hparse]
  exact ⟨_, rfl, rfl, Registry.mem_of_target? leads, _, List.getLast?_concat, rfl⟩

private theorem AtEntity.exists_set (h : r.AtEntity model t)
    (own : t.property? name = some (.navigation n)) (leads : model.target? n = some u)
    (toMany : n.toMany = true) :
    ∃ r', r.step model ⟨name, none, []⟩ = .ok r' ∧ r'.Arrives model (.entity u) := by
  obtain ⟨elements, place⟩ := r
  obtain ⟨rfl, -, -⟩ := h
  simp only [step, nameStep, entityStep, own, leads, toMany, ite_true, enterSet]
  exact ⟨_, rfl, _, List.getLast?_concat, Registry.mem_of_target? leads, rfl⟩

private theorem AtEntity.exists_one (h : r.AtEntity model t)
    (own : t.property? name = some (.navigation n)) (leads : model.target? n = some u)
    (toOne : n.toMany = false) :
    ∃ r', r.step model ⟨name, none, []⟩ = .ok r' ∧ r'.AtEntity model u := by
  obtain ⟨elements, place⟩ := r
  obtain ⟨rfl, -, -⟩ := h
  simp only [step, nameStep, entityStep, own, leads, toOne]
  exact ⟨_, rfl, rfl, Registry.mem_of_target? leads, _, List.getLast?_concat, rfl⟩

private theorem AtEntity.exists_property (h : r.AtEntity model t) {p : EntityProperty}
    (own : t.property? name = some (.entity p)) {indices : List UInt64}
    (hgoes : Goes model position (.ofValue p.valueType) (indices.map .index) last X) :
    ∃ r', r.step model ⟨name, none, indices⟩ = .ok r' ∧ r'.AtValue X := by
  obtain ⟨elements, place⟩ := r
  obtain ⟨rfl, -, -⟩ := h
  have hvalue : AtValue (.ofValue p.valueType) (push ⟨elements, .entity t⟩
      (.property p.name (parent ⟨elements, .entity t⟩)) (.ofValue p.valueType)) :=
    atValue_push (meets_ofValue p.valueType) rfl
  obtain ⟨r', hindices, hr'⟩ := hvalue.exists_indices hgoes name
  refine ⟨r', ?_, hr'⟩
  simp only [step, nameStep, entityStep, own]
  exact hindices

end Own

-- From an entity on, resource paths go on with the steps of property paths, with keys.
private theorem AtEntity.addresses {written : List WrittenStep} {steps : List (List Char)}
    (hkeys : WithKeys model t (written.map WrittenStep.text) steps)
    (hgoes : Goes model .entity (.entity t) (written.flatMap WrittenStep.raws) last X)
    (h : r.AtEntity model t) : r.Addresses model steps X := by
  induction written generalizing r t steps with
  | nil =>
    cases hkeys
    cases hgoes
    exact addresses_nil h.arrives
  | cons s written ih =>
    rw [List.flatMap_cons] at hgoes
    have hsuffix := s.isName.noSuffix
    rw [List.map_cons] at hkeys
    generalize htexts : written.map WrittenStep.text = texts at hkeys
    cases hkeys with
    | @many _ _ _ _ _ _ k own toMany leads kind more =>
      obtain ⟨_, hown, hleads, hindices, htext, hmore⟩ := exists_target_of_goes h.mem own hgoes
      cases leads.symm.trans hleads
      obtain ⟨r', hr', hentity⟩ := h.exists_keyed hown leads toMany kind
      have hstep : r.step model (s.segment (some k)) = .ok r' := by
        rw [WrittenStep.segment, hindices]
        exact hr'
      exact addresses_cons (reads_keyed htext k) hsuffix hstep (ih (htexts ▸ more) hmore hentity)
    | set own toMany =>
      obtain ⟨target, hown, hleads, hindices, -, hmore⟩ := exists_target_of_goes h.mem own hgoes
      obtain rfl := List.map_eq_nil_iff.mp htexts
      cases hmore
      obtain ⟨r', hr', harrives⟩ := h.exists_set hown hleads toMany
      have hstep : r.step model (s.segment none) = .ok r' := by
        rw [WrittenStep.segment, hindices]
        exact hr'
      exact addresses_cons s.reads_text hsuffix hstep (addresses_nil harrives)
    | one own toOne leads more =>
      obtain ⟨_, hown, hleads, hindices, -, hmore⟩ := exists_target_of_goes h.mem own hgoes
      cases leads.symm.trans hleads
      obtain ⟨r', hr', hentity⟩ := h.exists_one hown leads toOne
      have hstep : r.step model (s.segment none) = .ok r' := by
        rw [WrittenStep.segment, hindices]
        exact hr'
      exact addresses_cons s.reads_text hsuffix hstep (ih (htexts ▸ more) hmore hentity)
    | value other =>
      rw [s.stepName_text, EntityType.navigationProperty?] at other
      cases hgoes with
      | cons sorts takes more =>
        obtain ⟨_, _, hown, -⟩ | ⟨p, hown, rfl⟩ := exists_own_of_sorts h.mem sorts takes
        · rw [hown] at other
          cases other
        · obtain ⟨_, _, hindices, hmore⟩ := more.exists_of_append
          obtain ⟨r', hr', hvalue⟩ := h.exists_property hown hindices
          rw [← htexts]
          exact addresses_cons s.reads_text hsuffix hr' (hvalue.addresses hmore)

end Resolution

/-- A property path without blanks around it is made of steps, the first of which begins as a path
does. -/
theorem PropertyPath.exists_texts_of_parse {t : String} {p : PropertyPath}
    (hfront : Scanner.Stops Char.isWhitespace t.toList)
    (hback : ∀ c ∈ t.toList.getLast?, c.isWhitespace = false) (h : parse ctx t = .ok p) :
    ∃ first others, RawStep.IsFirst first.name ∧
      t.toList = first.text ++ WrittenStep.texts others ∧
        classify ctx .entity ((first :: others).flatMap WrittenStep.raws) = .ok p.steps := by
  obtain ⟨rest, hscan, hblank⟩ := Scanner.found_of_entire h
  rw [hfront.dropWhile_eq] at hscan
  obtain ⟨raws, mid, hraws, hscan⟩ := Scanner.bind_eq_found.mp hscan
  obtain ⟨steps, _, hsteps, hscan⟩ := Scanner.bind_eq_found.mp hscan
  obtain ⟨hsorted, rfl⟩ := Scanner.ofExcept_eq_found.mp hsteps
  obtain ⟨rfl, rfl⟩ : p = ⟨steps⟩ ∧ mid = rest := by
    cases hscan
    exact ⟨rfl, rfl⟩
  obtain ⟨first, others, hfirst, htext, rfl⟩ := WrittenStep.exists_of_scanPath hraws
  have hrest : mid = [] := by
    rcases List.eq_nil_or_concat mid with hnil | ⟨front, c, rfl⟩
    · exact hnil
    · rw [List.concat_eq_append] at htext hblank
      have hlast : t.toList.getLast? = some c := by
        rw [htext, ← List.append_assoc]
        exact List.getLast?_concat
      have hc := hback c hlast
      rw [hblank c (by simp)] at hc
      cases hc
  refine ⟨first, others, hfirst, ?_, hsorted⟩
  rw [htext, hrest, List.append_nil]

/-- A property path without blanks around it is read from the steps between its slashes. -/
theorem PropertyPath.exists_written_of_parse {t : String} {p : PropertyPath}
    (hfront : Scanner.Stops Char.isWhitespace t.toList)
    (hback : ∀ c ∈ t.toList.getLast?, c.isWhitespace = false) (h : parse ctx t = .ok p) :
    ∃ written : List WrittenStep, Text.splitAt '/' t.toList = written.map WrittenStep.text ∧
      classify ctx .entity (written.flatMap WrittenStep.raws) = .ok p.steps := by
  obtain ⟨first, others, -, htext, hsorted⟩ := exists_texts_of_parse hfront hback h
  refine ⟨first :: others, ?_, hsorted⟩
  have hjoined : t.toList = Query.joined '/' ((first :: others).map WrittenStep.text) := by
    rw [htext, List.map_cons, Query.joined_cons, List.flatMap_map]
    rfl
  rw [hjoined]
  exact Text.splitAt_joined (by simp) (List.forall_mem_map.mpr fun s _ ↦ s.slash_not_mem)

/-- A path begins with one entity of a type. -/
theorem Resolution.step_start {t : EntityType} (hset : model.entitySet? t.plural = some t)
    {key : String} {k : Key} (hparse : t.keyKind.parse key = .ok k) :
    start.step model ⟨t.plural, some key, []⟩ =
      .ok ⟨[.entitySet t.name t.plural none none, .entity t.name (some k) none (some 0)],
        .entity t⟩ := by
  simp only [step, nameStep, start, rootStep, hset, enterSet, hparse]
  rfl

/-- Behind a key of the type, a resource path goes on as the steps say. -/
theorem Resolution.Addresses.exists_parse {t : EntityType} (hplural : Segment.IsName t.plural)
    (hset : model.entitySet? t.plural = some t) {k : Key} (hkind : k.kind = t.keyKind)
    {steps : List (List Char)}
    (h : Addresses model ⟨[.entitySet t.name t.plural none none,
      .entity t.name (some k) none (some 0)], .entity t⟩ steps X) (root : String)
    (version : Version) :
    ∃ (path : ResourcePath) (r : Resolution), ResourcePath.parse model root version (String.ofList
        ('/' :: t.plural.toList ++ PathElement.keyText k ++ steps.flatMap ('/' :: ·))) = .ok path ∧
      path.elements = r.elements ∧ r.Arrives model X := by
  obtain ⟨written, r, rfl, hwritten, hsteps, harrives⟩ := h
  have hpath := Segment.ofPath?_keyed hplural.writable k hwritten
  rw [Segment.keyText, String.toList_ofList] at hpath
  have hparse := k.parse_text
  rw [hkind] at hparse
  have hsegments : Resolution.start.steps model
      (⟨t.plural, some (String.ofList k.text), []⟩ :: written.map (·.2)) = .ok (r, none) := by
    rw [Resolution.steps, hplural.noSuffix]
    exact (congrArg (· >>= _) (step_start hset hparse)).trans hsteps
  exact ⟨_, r, ResourcePath.parse_of_steps hpath hsegments root version, rfl, harrives⟩

/-- A property path that is read and resolved from a type becomes a resource path behind a key of
the type, with keys of the right kinds behind the steps that lead to several entities. It leads to
entities exactly if the property path does, of the same type. -/
theorem property_path_addresses (ctx : Context) (hmodel : ctx.model.Finalized)
    (hlinks : ctx.customLinks = false) (t : EntityType) (ht : t ∈ ctx.model.types)
    (hplural : Segment.IsName t.plural) (k : Key) (hkind : k.kind = t.keyKind) (text : String)
    (hfront : ∀ c ∈ text.toList.head?, c.isWhitespace = false)
    (hback : ∀ c ∈ text.toList.getLast?, c.isWhitespace = false) (p : PropertyPath)
    (hparse : PropertyPath.parse ctx text = .ok p) (hkey : .primaryKey ∉ p.steps) (X : Target)
    (hresolve : Target.resolve ctx.model t p = .ok X) (steps : List (List Char))
    (hkeys : WithKeys ctx.model t (Text.splitAt '/' text.toList) steps) (root : String)
    (version : Version) :
    ∃ path, ResourcePath.parse ctx.model root version (String.ofList
        ('/' :: t.plural.toList ++ PathElement.keyText k ++ steps.flatMap ('/' :: ·))) = .ok path ∧
      ∃ e, path.elements.getLast? = some e ∧
        (∀ E ∈ ctx.model.types, e.entityType? = some E.name ↔ X = .entity E) ∧
        ((∀ E, X ≠ .entity E) → e.isResource = false) := by
  obtain ⟨written, hwritten, hsorted⟩ := PropertyPath.exists_written_of_parse hfront hback hparse
  rw [hwritten] at hkeys
  obtain ⟨last, hgoes⟩ := goes_of_resolve hlinks hsorted hkey hresolve
  have hstart : Resolution.AtEntity ctx.model t ⟨[.entitySet t.name t.plural none none,
      .entity t.name (some k) none (some 0)], .entity t⟩ := ⟨rfl, ht, _, rfl, rfl⟩
  obtain ⟨path, r, hpath, helements, e, he, hlast⟩ :=
    (hstart.addresses hkeys hgoes).exists_parse hplural (hmodel.entitySet? ht) hkind root version
  refine ⟨path, hpath, e, helements ▸ he, fun E hE ↦ ?_, fun hX ↦ ?_⟩
  · cases X with
    | entity E' =>
      obtain ⟨hE', htype⟩ := hlast
      rw [htype, Option.some.injEq, Target.entity.injEq]
      refine ⟨fun hname ↦ ?_, fun heq ↦ by rw [heq]⟩
      have hsome := hmodel.entityType? hE'
      rw [hname, hmodel.entityType? hE] at hsome
      exact (Option.some.inj hsome).symm
    | value type => cases e <;> cases hlast <;> simp [PathElement.entityType?]
    | anything => cases e <;> cases hlast <;> simp [PathElement.entityType?]
  · cases X with
    | entity E' => exact absurd rfl (hX E')
    | value type => exact hlast
    | anything => exact hlast

/-- The museum without functions and without links in open values. -/
def Museum.context : Context := ⟨Museum.model, ⟨[]⟩, false⟩

/-- The theorem at a path through the exhibits of a room into the notes of one. -/
theorem museum_property_path_addresses :
    ∃ path, ResourcePath.parse Museum.model "http://museum" .v1_1
        "/Rooms(7)/exhibits('o''b')/notes/a/2[3]" = .ok path ∧
      ∃ e, path.elements.getLast? = some e ∧ e.isResource = false := by
  have hparse : PropertyPath.parse Museum.context "exhibits/notes/a/2[3]" =
      .ok ⟨[.navigation "exhibits", .property "notes", .custom "a", .index 2, .index 3]⟩ := by
    decide +kernel
  have hplural : Segment.IsName Museum.room.plural := ⟨⟨by decide, by decide⟩, by decide⟩
  have hsteps : Text.splitAt '/' "exhibits/notes/a/2[3]".toList =
      ["exhibits".toList, "notes".toList, "a".toList, "2[3]".toList] := by decide
  have hleads : Museum.model.target? ⟨"exhibits", 1, true, "room", false⟩ =
      some Museum.exhibit := rfl
  have hkeys : WithKeys Museum.model Museum.room (Text.splitAt '/' "exhibits/notes/a/2[3]".toList)
      ["exhibits('o''b')".toList, "notes".toList, "a".toList, "2[3]".toList] := by
    rw [hsteps]
    exact .many (k := .string "o'b") (by decide) rfl hleads rfl (.value (by decide))
  have hfront : ∀ c ∈ "exhibits/notes/a/2[3]".toList.head?, c.isWhitespace = false := by
    rintro _ ⟨⟩
    decide
  have hback : ∀ c ∈ "exhibits/notes/a/2[3]".toList.getLast?, c.isWhitespace = false := by
    rintro _ ⟨⟩
    decide
  have hresolve : Target.resolve Museum.model Museum.room
      ⟨[.navigation "exhibits", .property "notes", .custom "a", .index 2, .index 3]⟩ =
        .ok .anything := rfl
  obtain ⟨path, hpath, e, he, -, hvalue⟩ := property_path_addresses Museum.context Museum.finalized
    rfl Museum.room Museum.room_mem hplural (.long 7) rfl _ hfront hback _ hparse (by decide) _
    hresolve _ hkeys "http://museum" .v1_1
  exact ⟨path, hpath, e, he, hvalue fun E hE ↦ by cases hE⟩

end SensorQuery
