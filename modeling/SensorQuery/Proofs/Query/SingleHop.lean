import SensorQuery.Proofs.Query.Settled

/-!
# Expansions over one hop

Wherever an expansion stands in a query that is read, only the last step of its path may lead to an
entity. If the query can be asked of some type, the last step does: a path to an entity can only end
with the name of a link, and no name of a link is read as that of a value.
-/

namespace SensorQuery

open Fallible

namespace PropertyPath

/-- The path has steps, of which only the last may lead to an entity. -/
def HopsLast (p : PropertyPath) : Prop := p.steps ≠ [] ∧ ∀ s ∈ p.steps.dropLast, s.isHop = false

/-- The last step of the path leads to an entity. -/
def EndsInHop (p : PropertyPath) : Prop := ∃ s ∈ p.steps.getLast?, s.isHop = true

/-- Steps are cut behind each that leads to an entity. -/
theorem hopsLast_of_mem_hopsOf {steps hop : List PathStep} (h : hop ∈ hopsOf steps) :
    HopsLast ⟨hop⟩ := by
  induction steps generalizing hop with
  | nil => cases h
  | cons step steps ih =>
    rw [hopsOf] at h
    split at h
    · rcases List.mem_cons.mp h with rfl | h
      · exact ⟨List.cons_ne_nil step [], List.forall_mem_nil _⟩
      · exact ih h
    · next hstep =>
      split at h
      · cases List.mem_singleton.mp h
        exact ⟨List.cons_ne_nil step [], List.forall_mem_nil _⟩
      · next first hops hmore =>
        rw [hmore] at ih
        rcases List.mem_cons.mp h with rfl | h
        · obtain ⟨hne, hlast⟩ := ih List.mem_cons_self
          refine ⟨List.cons_ne_nil step first, ?_⟩
          rw [List.dropLast_cons_of_ne_nil hne, List.forall_mem_cons]
          exact ⟨Bool.not_eq_true _ ▸ hstep, hlast⟩
        · exact ih (List.mem_cons_of_mem first h)

end PropertyPath

variable {model : Registry} {t : EntityType}

namespace Target

variable {X Y : Target} {step : PathStep}

private theorem ofValue_ne_entity (type : ValueType) (t : EntityType) :
    ofValue type ≠ .entity t := by
  unfold ofValue
  split <;> simp

private theorem fieldStep_ne_entity (owner name : String) :
    fieldStep model owner name ≠ .ok (.entity t) := by
  unfold fieldStep
  split
  · simp
  · split
    · simpa using ofValue_ne_entity _ t
    · split <;> simp

/-- A step leads to an entity by a navigation property of the type where it starts, or by a link. -/
theorem exists_of_step_entity (h : Target.step model X step = .ok (.entity t)) :
    (∃ owner name n, X = .entity owner ∧ step.NamesProperty name ∧
      owner.property? name = some (.navigation n) ∧ model.target? n = some t) ∨
    ∃ name target, X = .anything ∧ step = .customLink name target ∧
      model.entityType? target = some t := by
  have hnavigation {owner : EntityType} {name : String} {missing : ValidationError}
      (h : entityStep model owner name missing = .ok (.entity t)) :
      ∃ n, owner.property? name = some (.navigation n) ∧ model.target? n = some t := by
    rcases entityStep_eq_ok_iff.mp h with ⟨n, target, hn, htarget, heq⟩ | ⟨p, -, heq⟩
    · cases heq
      exact ⟨n, hn, htarget⟩
    · exact absurd heq.symm (ofValue_ne_entity _ t)
  unfold Target.step at h
  split at h
  · split at h <;> cases h
  · next owner name =>
    obtain ⟨n, hn, htarget⟩ := hnavigation h
    exact .inl ⟨owner, name, n, rfl, .inl rfl, hn, htarget⟩
  · next owner name =>
    obtain ⟨n, hn, htarget⟩ := hnavigation h
    exact .inl ⟨owner, name, n, rfl, .inr rfl, hn, htarget⟩
  · cases h
  · next name target =>
    split at h
    · next hlinked =>
      cases h
      exact .inr ⟨name, target, rfl, rfl, hlinked⟩
    · cases h
  · cases h
  · cases h
  · exact absurd h (fieldStep_ne_entity _ _)
  · exact absurd h (fieldStep_ne_entity _ _)
  · exact absurd (Except.ok.inj h) (ofValue_ne_entity _ t)
  · cases h

/-- Whatever a step leads to is of the model. -/
theorem isOf_of_step (h : Target.step model X step = .ok Y) : Y.IsOf model := by
  rintro t rfl
  rcases exists_of_step_entity h with ⟨_, _, _, -, -, -, hleads⟩ | ⟨_, _, -, -, hlinked⟩
  · exact Registry.mem_of_target? hleads
  · exact (Registry.name_of_entityType? hlinked).1

/-- Whatever steps lead to is of the model. -/
theorem isOf_of_foldlM {steps : List PathStep} (ht : t ∈ model.types)
    (h : steps.foldlM (Target.step model) (.entity t) = .ok Y) : Y.IsOf model :=
  foldlM_keeps (P := (·.IsOf model)) (fun _ _ _ _ _ hstep ↦ isOf_of_step hstep) (isOf_entity ht) h

/-- Only a hop leads to an entity, or a name of links that is taken for that of a value. -/
theorem isHop_of_step (hX : X.IsOf model) (h : Target.step model X step = .ok (.entity t)) :
    step.isHop = true ∨ ∃ name, step = .property name ∧ model.isNavigationName name = true := by
  rcases exists_of_step_entity h with ⟨owner, name, n, rfl, named, hown, -⟩ | ⟨_, _, -, rfl, -⟩
  · rcases named with rfl | rfl
    · exact .inl rfl
    · obtain ⟨hmem, hname⟩ := EntityType.mem_of_property? hown
      exact .inr ⟨name, rfl, Registry.isNavigationName_iff.mpr ⟨owner, hX _ rfl, n, hmem, hname⟩⟩
  · exact .inl rfl

/-- A settled path that resolves to an entity ends in a hop. -/
theorem endsInHop_of_resolve {target : EntityType} (ht : t ∈ model.types) {p : PropertyPath}
    (hp : p.Settled model) (hne : p.steps ≠ [])
    (h : resolve model t p = .ok (.entity target)) : p.EndsInHop := by
  obtain ⟨front, last, hsteps⟩ := (List.eq_nil_or_concat p.steps).resolve_left hne
  rw [resolve, hsteps, List.concat_eq_append, List.foldlM_append] at h
  obtain ⟨X, hfront, h⟩ := bind_eq_ok.mp h
  obtain ⟨_, hlast, h⟩ := bind_eq_ok.mp h
  cases h
  refine ⟨last, by simp [hsteps], ?_⟩
  rcases isHop_of_step (isOf_of_foldlM ht hfront) hlast with hhop | ⟨name, rfl, hname⟩
  · exact hhop
  · have hvalue := hp name (by simp [hsteps])
    rw [hname] at hvalue
    cases hvalue

end Target

/-- In a query that passes, every expansion leads from a type of the model to an entity: by
induction on the size of the query, which is that of its nesting. -/
theorem Query.exists_target_of_validate (t : EntityType) (q : Query) (ht : t ∈ model.types)
    (h : q.validate model t = .ok ()) {q' : Query} (hq' : q' ∈ q.all) {x : Expand Query}
    (hx : x ∈ q'.expand) : ∃ t' ∈ model.types, ∃ target,
      Target.resolve model t' x.path = .ok (.entity target) := by
  have hexpand : ∀ x ∈ q.expand, ∃ target, Target.resolve model t x.path = .ok (.entity target) ∧
      ∀ sub ∈ x.query, sub.validate model target = .ok () := by
    obtain ⟨top, skip, count, format, filter, orderBy, select, expand⟩ := q
    rw [validate, check_bind_eq_ok, validateExpands_eq_ok_iff] at h
    exact h.2
  rcases mem_all.mp hq' with rfl | ⟨y, hy, sub, hsub, hq'⟩
  · obtain ⟨target, htarget, -⟩ := hexpand x hx
    exact ⟨t, ht, target, htarget⟩
  · obtain ⟨target, htarget, hsubs⟩ := hexpand y hy
    have hmem : target ∈ model.types := Target.isOf_of_foldlM ht htarget target rfl
    have hsize : sizeOf sub < sizeOf q := by
      obtain ⟨path, query⟩ := y
      cases hsub
      exact sizeOf_lt_of_mem_expand hy
    exact exists_target_of_validate target sub hmem (hsubs sub hsub) hq' hx
termination_by sizeOf q

/-- In a query that is read and in all queries in it, no selected path stands twice, and only the
last step of an expanded path may lead to an entity. If the query can be asked of some type of the
model, the last step of each expanded path does. -/
theorem expansions_lead_over_one_hop (ctx : Context) (text : String) (q : Query)
    (h : Query.parse ctx text = .ok q) :
    (∀ q' ∈ q.all, q'.select.paths.Nodup ∧ ∀ x ∈ q'.expand, x.path.HopsLast) ∧
      ∀ t ∈ ctx.model.types, q.validate ctx.model t = .ok () →
        ∀ q' ∈ q.all, ∀ x ∈ q'.expand, x.path.EndsInHop := by
  have hread := Query.partsRead_of_parse h
  have hhops : ∀ q' ∈ q.all, ∀ x ∈ q'.expand, x.path.HopsLast := by
    intro q' hq' x hx
    obtain ⟨_, p, -, hhop⟩ := (hread q' hq').expand x hx
    obtain ⟨steps, hsteps, hpath⟩ := List.mem_map.mp hhop
    exact hpath ▸ PropertyPath.hopsLast_of_mem_hopsOf hsteps
  constructor
  · intro q' hq'
    refine ⟨?_, hhops q' hq'⟩
    rcases (hread q' hq').select with hempty | ⟨v, hv⟩
    · rw [hempty]
      exact List.nodup_nil
    · exact (Query.formed_of_parseSelect hv).nodup
  · intro t ht hvalid q' hq' x hx
    obtain ⟨t', ht', target, hresolve⟩ := Query.exists_target_of_validate t q ht hvalid hq' hx
    have hsettled := (hread q' hq').settled.2.2.2 x hx
    exact Target.endsInHop_of_resolve ht' hsettled (hhops q' hq' x hx).1 hresolve

/-- The museum without functions, with links in open values. -/
def Museum.linkedContext : Context := ⟨Museum.model, ⟨[]⟩, true⟩

/-- The exhibits of rooms, each with the names of the rooms that it was seen in. -/
def Museum.sightings : Query :=
  { Query.empty with
    expand := [⟨⟨[.navigation "exhibits"]⟩, some { Query.empty with
      expand := [⟨⟨[.property "notes", .customLink "seen" "Room"]⟩, some { Query.empty with
        select := .ofList [⟨[.property "name"]⟩] }⟩] }⟩] }

/-- The theorem at a path over two links, the second in an open value. -/
theorem museum_sightings_lead_over_one_hop :
    Museum.sightings.validate Museum.model Museum.room = .ok () ∧
    ∀ q' ∈ Museum.sightings.all, q'.select.paths.Nodup ∧
      ∀ x ∈ q'.expand, x.path.HopsLast ∧ x.path.EndsInHop := by
  have hread : Query.parse Museum.linkedContext
      "$expand=exhibits/notes/seen.Room($select=name,name)" = .ok Museum.sightings := by
    decide +kernel
  have hvalid : Museum.sightings.validate Museum.model Museum.room = .ok () := by decide +kernel
  obtain ⟨hshape, hends⟩ := expansions_lead_over_one_hop _ _ _ hread
  refine ⟨hvalid, fun q' hq' ↦ ⟨(hshape q' hq').1, fun x hx ↦ ⟨(hshape q' hq').2 x hx, ?_⟩⟩⟩
  exact hends Museum.room Museum.room_mem hvalid q' hq' x hx

end SensorQuery
