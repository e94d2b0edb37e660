import SensorQuery.Proofs.Model.Assembled

/-!
# Steps that succeed

Steps in order that all succeed leave nothing out: the builder has every entity type that stands in
them, however deep in extensions, and the name of every extension among them. So a model has all
types that its steps declare, and an extension that is applied once more behind them is refused.
-/

namespace SensorQuery

mutual

/-- The entity types that the declaration declares, in order. -/
def Declaration.entityTypes : Declaration → List EntityDeclaration
  | .entityType d => [d]
  | .property _ _ => []
  | .complexType _ => []
  | .link _ => []
  | .extend _ steps => Declaration.entityTypesOf steps

/-- The entity types that the steps declare, in order. -/
def Declaration.entityTypesOf : List Declaration → List EntityDeclaration
  | [] => []
  | step :: steps => step.entityTypes ++ Declaration.entityTypesOf steps

end

/-- The entity types of steps are those of each of them. -/
theorem Declaration.mem_entityTypesOf {d : EntityDeclaration} {steps : List Declaration} :
    d ∈ Declaration.entityTypesOf steps ↔ ∃ step ∈ steps, d ∈ step.entityTypes := by
  induction steps with
  | nil => simp [Declaration.entityTypesOf]
  | cons step steps ih => simp [Declaration.entityTypesOf, ih]

/-- The type has the key and the properties of the declaration, under its names. -/
structure EntityType.Renders (t : EntityType) (d : EntityDeclaration) : Prop where
  name : t.name = d.name
  plural : t.plural = d.plural
  primaryKey : t.primaryKey = d.primaryKey
  keyKind : t.keyKind = d.keyKind
  key : .entity ⟨d.primaryKey, .id, false⟩ ∈ t.properties
  properties : ∀ p ∈ d.properties, .entity p ∈ t.properties

namespace Builder

private theorem renders_typeOf (b : Builder) (d : EntityDeclaration) : (b.typeOf d).Renders d where
  name := name_typeOf
  plural := plural_typeOf
  primaryKey := primaryKey_typeOf
  keyKind := keyKind_typeOf
  key := entity_mem_typeOf.mpr (.inl rfl)
  properties _ hp := entity_mem_typeOf.mpr (.inr (.inl hp))

variable {b more : Builder} {step : Declaration} {steps : List Declaration} {name : String}

private theorem attempt_eq_iff {x : Except ModelError Builder} :
    b.attempt x = (more, none) ↔ x = .ok more := by
  cases x with
  | error e => simp [attempt]
  | ok more' => simp [attempt]

private theorem declareAll_cons_eq_iff : b.declareAll (step :: steps) = (more, none) ↔
    ∃ mid, b.declare step = (mid, none) ∧ mid.declareAll steps = (more, none) := by
  rw [declareAll]
  rcases b.declare step with ⟨mid, _ | e⟩
  · simp
  · simp

/-- An extension succeeds if its name is new and its steps succeed, and its name is recorded. -/
theorem declare_extend_eq_iff : b.declare (.extend name steps) = (more, none) ↔
    name ∉ b.extensions ∧ ∃ mid, b.declareAll steps = (mid, none) ∧
      more = { mid with extensions := mid.extensions ++ [name] } := by
  rw [declare]
  by_cases h : name ∈ b.extensions
  · simp [h]
  · rw [if_neg (by simpa using h)]
    rcases b.declareAll steps with ⟨mid, _ | e⟩
    · simp [h, eq_comm]
    · simp

mutual

/-- A step that succeeds adds the types that it declares. -/
theorem types_of_declare {b more : Builder} (step : Declaration)
    (h : b.declare step = (more, none)) : more.types = b.types ++ step.entityTypes := by
  cases step with
  | entityType d =>
    rw [declare, attempt_eq_iff] at h
    obtain ⟨-, -, rfl⟩ := addEntityType_eq_ok h
    rfl
  | complexType c =>
    rw [declare, attempt_eq_iff] at h
    obtain ⟨-, rfl⟩ := addComplexType_eq_ok h
    exact (List.append_nil _).symm
  | property owner p =>
    rw [declare] at h
    cases h
    exact (List.append_nil _).symm
  | link l =>
    rw [declare] at h
    cases h
    exact (List.append_nil _).symm
  | extend name steps =>
    obtain ⟨-, mid, hmid, rfl⟩ := declare_extend_eq_iff.mp h
    have htypes : mid.types = b.types ++ Declaration.entityTypesOf steps :=
      types_of_declareAll steps hmid
    rw [Declaration.entityTypes, ← htypes]

private theorem types_of_declareAll {b more : Builder} (steps : List Declaration)
    (h : b.declareAll steps = (more, none)) :
    more.types = b.types ++ Declaration.entityTypesOf steps := by
  cases steps with
  | nil =>
    rw [declareAll] at h
    cases h
    exact (List.append_nil _).symm
  | cons step steps =>
    obtain ⟨mid, hstep, hsteps⟩ := declareAll_cons_eq_iff.mp h
    rw [types_of_declareAll steps hsteps, types_of_declare step hstep, List.append_assoc]
    rfl

end

private theorem reachable_declareAll (h : b.Reachable) (steps : List Declaration) :
    (b.declareAll steps).1.Reachable := by
  induction steps generalizing b with
  | nil =>
    rw [declareAll]
    exact h
  | cons step steps ih =>
    have hstep := Reachable.declare h step
    rw [declareAll]
    rcases hb : b.declare step with ⟨mid, _ | e⟩
    · rw [hb] at hstep
      exact ih hstep
    · rw [hb] at hstep
      exact hstep

private theorem kept_recorded (name : String) : Kept (name ∈ ·.extensions) where
  entityType h hd := by
    obtain ⟨-, -, rfl⟩ := addEntityType_eq_ok hd
    exact h
  property _ h := h
  complexType h hc := by
    obtain ⟨-, rfl⟩ := addComplexType_eq_ok hc
    exact h
  link _ h := h
  extension _ h := List.mem_append_left _ h

/-- After steps that succeed, what was recorded is recorded, and so is every extension among
them. -/
theorem recorded_of_declareAll (h : b.declareAll steps = (more, none)) :
    (∀ name ∈ b.extensions, name ∈ more.extensions) ∧
      ∀ name code, .extend name code ∈ steps → name ∈ more.extensions := by
  induction steps generalizing b with
  | nil =>
    rw [declareAll] at h
    cases h
    exact ⟨fun name hname ↦ hname, nofun⟩
  | cons step steps ih =>
    obtain ⟨mid, hstep, hsteps⟩ := declareAll_cons_eq_iff.mp h
    obtain ⟨hkeep, hmem⟩ := ih hsteps
    refine ⟨fun name hname ↦ hkeep name ?_, fun name code hcode ↦ ?_⟩
    · have hkept := (kept_recorded name).declare step hname
      rwa [hstep] at hkept
    · rcases List.mem_cons.mp hcode with rfl | hcode
      · obtain ⟨-, last, -, rfl⟩ := declare_extend_eq_iff.mp hstep
        exact hkeep name (List.mem_append_right _ (List.mem_singleton_self name))
      · exact hmem name code hcode

private theorem declareAll_append (h : b.declareAll steps = (more, none))
    (rest : List Declaration) :
    b.declareAll (steps ++ rest) = more.declareAll rest := by
  induction steps generalizing b with
  | nil =>
    rw [declareAll] at h
    cases h
    rfl
  | cons step steps ih =>
    obtain ⟨mid, hstep, hsteps⟩ := declareAll_cons_eq_iff.mp h
    rw [List.cons_append, declareAll, hstep]
    exact ih hsteps

/-- An extension that stands among steps which succeed is refused behind them. -/
theorem build_again {code again : List Declaration} (h : empty.declareAll steps = (more, none))
    (hmem : .extend name code ∈ steps) (rest : List Declaration) :
    build (steps ++ .extend name again :: rest) = .error (.duplicateExtension name) := by
  have hrecorded : name ∈ more.extensions := (recorded_of_declareAll h).2 name code hmem
  rw [build, declareAll_append h, declareAll, declare, if_pos (by simpa using hrecorded)]

/-- There is a model if every step succeeds and the declarations can be finished. -/
theorem build_eq_ok_iff {model : Registry} :
    build steps = .ok model ↔
      ∃ b, empty.declareAll steps = (b, none) ∧ b.finalize = .ok model := by
  rw [build]
  rcases empty.declareAll steps with ⟨b, _ | e⟩
  · simp
  · simp

/-- A model has every type that its steps declare, with the key and the properties that it is
declared with, under the names that it is declared with. -/
theorem exists_type_of_build {model : Registry} (h : build steps = .ok model)
    {d : EntityDeclaration} (hd : d ∈ Declaration.entityTypesOf steps) :
    ∃ t, model.entityType? d.name = some t ∧ model.entitySet? d.plural = some t ∧
      t.Renders d := by
  obtain ⟨b, hb, hmodel⟩ := build_eq_ok_iff.mp h
  have hreachable : b.Reachable := by
    have h := reachable_declareAll .empty steps
    rwa [hb] at h
  have hfinal : model.Finalized := ⟨b, hreachable, hmodel⟩
  have hmem : b.typeOf d ∈ model.types := by
    rw [hreachable.distinct.types_of_finalize hmodel, types_of_declareAll steps hb]
    exact List.mem_map_of_mem (List.mem_append_right _ hd)
  have hname := hfinal.entityType? hmem
  have hplural := hfinal.entitySet? hmem
  rw [name_typeOf] at hname
  rw [plural_typeOf] at hplural
  exact ⟨b.typeOf d, hname, hplural, renders_typeOf b d⟩

end Builder

end SensorQuery
