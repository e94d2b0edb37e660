import SensorQuery.Query.Validation
import SensorQuery.Proofs.Model.Coherent

/-!
# What validation decides

Where a path leads is said by the declarations of the model, one step at a time (`Target.StepsTo`).
A query fits a type if its paths lead where its options need them to (`Query.PathsFit`), and so on
for the queries of its expansions, however deep, each at the type that its expansion leads to
(`Query.Reached`). Validation succeeds exactly then.
-/

namespace SensorQuery

open Fallible

/-! ### Where a path leads -/

/-- The step goes by the name to a property of an entity. -/
def PathStep.NamesProperty (step : PathStep) (name : String) : Prop :=
  step = .navigation name ∨ step = .property name

/-- The step goes by the name to a field of a value. -/
def PathStep.NamesField (step : PathStep) (name : String) : Prop :=
  step = .custom name ∨ step = .property name

namespace Target

/-- The declarations of the model lead from a place by a step to another place. -/
inductive StepsTo (model : Registry) : Target → PathStep → Target → Prop where
  | key {t : EntityType} {p : EntityProperty} (own : .entity p ∈ t.properties)
    (isKey : p.name = t.primaryKey) : StepsTo model (.entity t) .primaryKey (.ofValue p.valueType)
  | navigation {t target : EntityType} {n : NavigationProperty} {step : PathStep}
    (own : .navigation n ∈ t.properties) (registered : target ∈ model.types)
    (leads : target.id = n.target) (named : step.NamesProperty n.name) :
    StepsTo model (.entity t) step (.entity target)
  | property {t : EntityType} {p : EntityProperty} {step : PathStep}
    (own : .entity p ∈ t.properties) (named : step.NamesProperty p.name) :
    StepsTo model (.entity t) step (.ofValue p.valueType)
  | element {type : ValueType} {i : UInt64} :
    StepsTo model (.value (.list type)) (.index i) (.ofValue type)
  | field {c : ComplexType} {name : String} {type : ValueType} {step : PathStep}
    (declared : c ∈ model.complexTypes) (has : c.field? name = some type)
    (named : step.NamesField name) : StepsTo model (.value (.complex c.name)) step (.ofValue type)
  | openField {c : ComplexType} {name : String} {step : PathStep}
    (declared : c ∈ model.complexTypes) (lacks : c.field? name = none) (isOpen : c.isOpen = true)
    (named : step.NamesField name) : StepsTo model (.value (.complex c.name)) step .anything
  | link {t : EntityType} {name : String} (registered : t ∈ model.types) :
    StepsTo model .anything (.customLink name t.name) (.entity t)
  | part {step : PathStep} (hkey : step ≠ .primaryKey)
    (hlink : ∀ name target, step ≠ .customLink name target) :
    StepsTo model .anything step .anything

/-- The steps lead one after the other to the place. -/
inductive PathTo (model : Registry) : Target → List PathStep → Target → Prop where
  | nil (X : Target) : PathTo model X [] X
  | cons {X Y Z : Target} {step : PathStep} {steps : List PathStep} (first : StepsTo model X step Y)
    (more : PathTo model Y steps Z) : PathTo model X (step :: steps) Z

/-- An entity at the place is of a type of the model. -/
def IsOf (model : Registry) (X : Target) : Prop := ∀ t, X = .entity t → t ∈ model.types

variable {model : Registry} {t : EntityType} {X Y : Target}

/-- A type of the model is a target in it. -/
theorem isOf_entity (ht : t ∈ model.types) : (Target.entity t).IsOf model := by
  rintro _ ⟨⟩
  exact ht

private theorem isOf_ofValue (type : ValueType) : (Target.ofValue type).IsOf model := by
  intro t ht
  unfold ofValue at ht
  split at ht <;> cases ht

private theorem StepsTo.isOf {step : PathStep} (h : StepsTo model X step Y) : Y.IsOf model := by
  cases h with
  | navigation _ registered _ _ => exact isOf_entity registered
  | link registered => exact isOf_entity registered
  | key | property | element | field => exact isOf_ofValue _
  | openField | part => exact fun t ht ↦ by cases ht

/-! ### Steps -/

/-- A step by name from an entity is taken exactly if the type has a property of that name, and the
target of a navigation property is registered. -/
theorem entityStep_eq_ok_iff {name : String} {missing : ValidationError} :
    entityStep model t name missing = .ok Y ↔
      (∃ n target, t.property? name = some (.navigation n) ∧ model.target? n = some target ∧
        Y = .entity target) ∨
      ∃ p, t.property? name = some (.entity p) ∧ Y = ofValue p.valueType := by
  constructor
  · intro h
    unfold entityStep at h
    split at h
    · next n hn =>
      split at h
      · next target htarget =>
        cases h
        exact .inl ⟨n, target, hn, htarget, rfl⟩
      · cases h
    · next p hp =>
      cases h
      exact .inr ⟨p, hp, rfl⟩
    · cases h
  · rintro (⟨n, target, hn, htarget, rfl⟩ | ⟨p, hp, rfl⟩)
    · simp only [entityStep, hn, htarget]
    · simp only [entityStep, hp]

private theorem stepsTo_of_entityStep (hmodel : model.Coherent) (ht : t ∈ model.types)
    {name : String} {missing : ValidationError} {step : PathStep} (named : step.NamesProperty name)
    (h : entityStep model t name missing = .ok Y) : StepsTo model (.entity t) step Y := by
  rcases entityStep_eq_ok_iff.mp h with ⟨n, target, hn, htarget, rfl⟩ | ⟨p, hp, rfl⟩
  · obtain ⟨hown, rfl⟩ := (hmodel.property? t ht _ _).mp hn
    obtain ⟨hregistered, hleads⟩ := hmodel.target?_eq_some_iff.mp htarget
    exact .navigation hown hregistered hleads named
  · obtain ⟨hown, rfl⟩ := (hmodel.property? t ht _ _).mp hp
    exact .property hown named

-- A step by name from a value of a complex type follows its field, or any name if it is open.
private theorem stepsTo_of_fieldStep (hmodel : model.Coherent) {owner name : String}
    {step : PathStep} (named : step.NamesField name) (h : fieldStep model owner name = .ok Y) :
    StepsTo model (.value (.complex owner)) step Y := by
  unfold fieldStep at h
  split at h
  · cases h
  · next c hc =>
    obtain ⟨hdeclared, rfl⟩ := (hmodel.complexType? _ _).mp hc
    split at h
    · next type htype =>
      cases h
      exact .field hdeclared htype named
    · next hlacks =>
      split at h
      · next hopen =>
        cases h
        exact .openField hdeclared hlacks hopen named
      · cases h

private theorem entityProperty?_primaryKey (hmodel : model.Coherent) (ht : t ∈ model.types) :
    t.entityProperty? t.primaryKey = some ⟨t.primaryKey, .id, false⟩ := by
  have hkey : .entity ⟨t.primaryKey, .id, false⟩ ∈ t.properties :=
    List.mem_of_head? (hmodel.key t ht)
  rw [EntityType.entityProperty?, (hmodel.property? t ht t.primaryKey _).mpr ⟨hkey, rfl⟩]
  rfl

private theorem valueType_of_isKey (hmodel : model.Coherent) (ht : t ∈ model.types)
    {p : EntityProperty} (own : .entity p ∈ t.properties) (isKey : p.name = t.primaryKey) :
    p.valueType = .id := by
  have hp := entityProperty?_primaryKey hmodel ht
  rw [EntityType.entityProperty?, (hmodel.property? t ht _ _).mpr ⟨own, isKey⟩] at hp
  cases hp
  rfl

private theorem stepsTo_of_step (hmodel : model.Coherent) (hX : X.IsOf model) {step : PathStep}
    (h : Target.step model X step = .ok Y) : StepsTo model X step Y := by
  cases X with
  | entity t =>
    have ht := hX t rfl
    cases step with
    | primaryKey =>
      simp only [Target.step, entityProperty?_primaryKey hmodel ht, Except.ok.injEq] at h
      rw [← h]
      exact .key (List.mem_of_head? (hmodel.key t ht)) rfl
    | navigation name => exact stepsTo_of_entityStep hmodel ht (.inl rfl) h
    | property name => exact stepsTo_of_entityStep hmodel ht (.inr rfl) h
    | custom | index | customLink => cases h
  | value type =>
    cases type with
    | complex owner =>
      cases step with
      | custom name => exact stepsTo_of_fieldStep hmodel (.inl rfl) h
      | property name => exact stepsTo_of_fieldStep hmodel (.inr rfl) h
      | primaryKey | navigation | index | customLink => cases h
    | list type =>
      cases step with
      | index i =>
        cases h
        exact .element
      | _ => cases h
    | _ => cases step <;> cases h
  | anything =>
    cases step with
    | customLink name target =>
      simp only [Target.step] at h
      split at h
      · next t ht =>
        obtain ⟨hregistered, rfl⟩ := (hmodel.entityType? _ _).mp ht
        cases h
        exact .link hregistered
      · cases h
    | primaryKey => cases h
    | _ =>
      cases h
      exact .part (by simp) (by simp)

private theorem StepsTo.step_eq_ok (hmodel : model.Coherent) (hX : X.IsOf model) {step : PathStep}
    (h : StepsTo model X step Y) : Target.step model X step = .ok Y := by
  cases h with
  | key own isKey =>
    have ht := hX _ rfl
    rw [valueType_of_isKey hmodel ht own isKey]
    simp only [Target.step, entityProperty?_primaryKey hmodel ht]
    rfl
  | navigation own registered leads named =>
    have htarget := hmodel.target?_eq_some_iff.mpr ⟨registered, leads⟩
    have hown := (hmodel.property? _ (hX _ rfl) _ _).mpr ⟨own, rfl⟩
    rw [Property.name] at hown
    rcases named with rfl | rfl <;>
      exact entityStep_eq_ok_iff.mpr (.inl ⟨_, _, hown, htarget, rfl⟩)
  | property own named =>
    have hown := (hmodel.property? _ (hX _ rfl) _ _).mpr ⟨own, rfl⟩
    rw [Property.name] at hown
    rcases named with rfl | rfl <;> exact entityStep_eq_ok_iff.mpr (.inr ⟨_, hown, rfl⟩)
  | element => rfl
  | field declared has named =>
    have hc := (hmodel.complexType? _ _).mpr ⟨declared, rfl⟩
    rcases named with rfl | rfl <;> simp only [Target.step, fieldStep, hc, has]
  | openField declared lacks isOpen named =>
    have hc := (hmodel.complexType? _ _).mpr ⟨declared, rfl⟩
    rcases named with rfl | rfl <;>
      simp only [Target.step, fieldStep, hc, lacks, isOpen, ite_true]
  | link registered =>
    simp only [Target.step, (hmodel.entityType? _ _).mpr ⟨registered, rfl⟩]
  | part hkey hlink =>
    cases step with
    | primaryKey => exact absurd rfl hkey
    | customLink name target => exact absurd rfl (hlink name target)
    | _ => rfl

/-- A step is taken exactly where the declarations lead. -/
theorem step_eq_ok_iff (hmodel : model.Coherent) (hX : X.IsOf model) {step : PathStep} :
    Target.step model X step = .ok Y ↔ StepsTo model X step Y :=
  ⟨stepsTo_of_step hmodel hX, StepsTo.step_eq_ok hmodel hX⟩

/-- Steps are taken exactly where the declarations lead. -/
theorem foldlM_eq_ok_iff (hmodel : model.Coherent) (hX : X.IsOf model) {steps : List PathStep} :
    steps.foldlM (Target.step model) X = .ok Y ↔ PathTo model X steps Y := by
  induction steps generalizing X with
  | nil =>
    constructor
    · rintro ⟨⟩
      exact .nil _
    · rintro ⟨⟩
      rfl
  | cons step steps ih =>
    rw [List.foldlM_cons, bind_eq_ok]
    constructor
    · rintro ⟨Z, hstep, hmore⟩
      have hfirst := (step_eq_ok_iff hmodel hX).mp hstep
      exact .cons hfirst ((ih hfirst.isOf).mp hmore)
    · rintro (_ | ⟨hfirst, hmore⟩)
      exact ⟨_, (step_eq_ok_iff hmodel hX).mpr hfirst, (ih hfirst.isOf).mpr hmore⟩

/-- A path resolves to where the declarations lead. -/
theorem resolve_eq_ok_iff (hmodel : model.Coherent) (ht : t ∈ model.types) {p : PropertyPath} :
    resolve model t p = .ok Y ↔ PathTo model (.entity t) p.steps Y :=
  foldlM_eq_ok_iff hmodel (isOf_entity ht)

/-- What a path leads to from a target of the model is a target of it. -/
theorem PathTo.isOf (hX : X.IsOf model) {steps : List PathStep} (h : PathTo model X steps Y) :
    Y.IsOf model := by
  induction h with
  | nil => exact hX
  | cons first _ ih => exact ih first.isOf

end Target

/-! ### The paths of expressions -/

namespace Expression

/-- The path stands somewhere in the expression. -/
inductive Mentions (p : PropertyPath) : Expression → Prop where
  | path : Mentions p (.path p)
  | left {op : BinaryOperator} {left right : Expression} (h : Mentions p left) :
    Mentions p (.binary op left right)
  | right {op : BinaryOperator} {left right : Expression} (h : Mentions p right) :
    Mentions p (.binary op left right)
  | operand {op : UnaryOperator} {operand : Expression} (h : Mentions p operand) :
    Mentions p (.unary op operand)
  | argument {name : String} {arguments : List Expression} {e : Expression}
    (he : e ∈ arguments) (h : Mentions p e) : Mentions p (.call name arguments)

private theorem mem_pathsOfAll {p : PropertyPath} {e : Expression} {es : List Expression}
    (he : e ∈ es) (h : p ∈ e.paths) : p ∈ pathsOfAll es := by
  induction es with
  | nil => cases he
  | cons e' es ih =>
    rw [pathsOfAll, List.mem_append]
    rcases List.mem_cons.mp he with rfl | he
    · exact .inl h
    · exact .inr (ih he)

private theorem Mentions.mem_paths {p : PropertyPath} {e : Expression} (h : Mentions p e) :
    p ∈ e.paths := by
  induction h with
  | path => exact List.mem_singleton_self p
  | left _ ih => exact List.mem_append_left _ ih
  | right _ ih => exact List.mem_append_right _ ih
  | operand _ ih => exact ih
  | argument he _ ih => exact mem_pathsOfAll he ih

mutual

private theorem mentions_of_mem_paths {p : PropertyPath} :
    (e : Expression) → p ∈ e.paths → Mentions p e
  | .constant _, h => by cases h
  | .path q, h => by
    cases List.mem_singleton.mp h
    exact .path
  | .binary _ left right, h => by
    rcases List.mem_append.mp h with h | h
    · exact .left (mentions_of_mem_paths left h)
    · exact .right (mentions_of_mem_paths right h)
  | .unary _ operand, h => .operand (mentions_of_mem_paths operand h)
  | .call _ arguments, h => by
    obtain ⟨e, he, h⟩ := exists_mentions_of_mem_pathsOfAll arguments h
    exact .argument he h

private theorem exists_mentions_of_mem_pathsOfAll {p : PropertyPath} :
    (es : List Expression) → p ∈ pathsOfAll es → ∃ e ∈ es, Mentions p e
  | [], h => by cases h
  | e :: es, h => by
    rcases List.mem_append.mp h with h | h
    · exact ⟨e, List.mem_cons_self, mentions_of_mem_paths e h⟩
    · obtain ⟨e', he', h⟩ := exists_mentions_of_mem_pathsOfAll es h
      exact ⟨e', List.mem_cons_of_mem e he', h⟩

end

private theorem mem_paths_iff {p : PropertyPath} {e : Expression} : p ∈ e.paths ↔ e.Mentions p :=
  ⟨mentions_of_mem_paths e, Mentions.mem_paths⟩

end Expression

/-! ### Queries -/

namespace Query

/-- The path leads from an entity of the type to something that is not an entity. -/
def EndsAtValue (model : Registry) (t : EntityType) (p : PropertyPath) : Prop :=
  ∃ X, Target.PathTo model (.entity t) p.steps X ∧ ∀ t', X ≠ .entity t'

/-- The paths of the query itself lead from an entity of the type to where its options need them to.
The queries of its expansions do not count. -/
structure PathsFit (model : Registry) (t : EntityType) (q : Query) : Prop where
  filter : ∀ e ∈ q.filter, ∀ p, e.Mentions p → EndsAtValue model t p
  orderBy : ∀ o ∈ q.orderBy, ∀ p, o.expression.Mentions p → EndsAtValue model t p
  select : ∀ p ∈ q.select.paths, ∃ X, Target.PathTo model (.entity t) p.steps X
  expand : ∀ x ∈ q.expand, ∃ target, Target.PathTo model (.entity t) x.path.steps (.entity target)

/-- The query is reached from the query `q` at the type `t` over any number of expansions, at the
type that the paths of these lead to. -/
inductive Reached (model : Registry) (t : EntityType) (q : Query) : EntityType → Query → Prop where
  | self : Reached model t q t q
  | expand {t' target : EntityType} {q' sub : Query} {path : PropertyPath}
    (h : Reached model t q t' q') (expanded : ⟨path, some sub⟩ ∈ q'.expand)
    (leads : Target.PathTo model (.entity t') path.steps (.entity target)) :
    Reached model t q target sub

variable {model : Registry} {t target : EntityType} {q q' sub : Query} {path p : PropertyPath}

/-! ### One level -/

private theorem checkValuePath_eq_ok (hmodel : model.Coherent) (ht : t ∈ model.types)
    {option : String} : checkValuePath model t option p = .ok () ↔ EndsAtValue model t p := by
  unfold checkValuePath EndsAtValue
  simp only [bind_eq_ok, ← Target.resolve_eq_ok_iff hmodel ht]
  refine exists_congr fun X ↦ and_congr_right fun _ ↦ ?_
  cases X <;> simp [pure, Except.pure]

private theorem checkExpression_eq_ok (hmodel : model.Coherent) (ht : t ∈ model.types)
    {option : String} {e : Expression} : checkExpression model t option e = .ok () ↔
      ∀ p, e.Mentions p → EndsAtValue model t p := by
  unfold checkExpression
  simp only [forM_eq_ok, checkValuePath_eq_ok hmodel ht, Expression.mem_paths_iff]

private theorem checkSelected_eq_ok (hmodel : model.Coherent) (ht : t ∈ model.types) :
    checkSelected model t p = .ok () ↔ ∃ X, Target.PathTo model (.entity t) p.steps X := by
  unfold checkSelected
  simp only [bind_eq_ok, Target.resolve_eq_ok_iff hmodel ht, pure, Except.pure, and_true]

/-- An expansion leads to the entity that its path resolves to. -/
theorem expandTarget_eq_ok_iff :
    expandTarget model t p = .ok target ↔ Target.resolve model t p = .ok (.entity target) := by
  unfold expandTarget
  rw [bind_eq_ok]
  constructor
  · rintro ⟨X, hX, h⟩
    cases X with
    | entity t' =>
      cases h
      exact hX
    | value | anything => cases h
  · exact fun h ↦ ⟨_, h, rfl⟩

/-- Expansions pass if each leads to an entity, of whose type its query can be asked. -/
theorem validateExpands_eq_ok_iff {es : List (Expand Query)} :
    validateExpands model t es = .ok () ↔ ∀ x ∈ es, ∃ target,
      Target.resolve model t x.path = .ok (.entity target) ∧
        ∀ sub ∈ x.query, validate model target sub = .ok () := by
  induction es with
  | nil => simp [validateExpands]
  | cons x es ih =>
    obtain ⟨path, query⟩ := x
    rw [List.forall_mem_cons, ← ih]
    cases query with
    | none =>
      simp only [validateExpands, bind_eq_ok, expandTarget_eq_ok_iff]
      constructor
      · rintro ⟨target, hleads, hes⟩
        exact ⟨⟨target, hleads, fun sub hsub ↦ by cases hsub⟩, hes⟩
      · rintro ⟨⟨target, hleads, -⟩, hes⟩
        exact ⟨target, hleads, hes⟩
    | some sub =>
      rw [validateExpands, bind_eq_ok]
      simp only [check_bind_eq_ok, expandTarget_eq_ok_iff]
      constructor
      · rintro ⟨target, hleads, hsub, hes⟩
        refine ⟨⟨target, hleads, ?_⟩, hes⟩
        rintro _ ⟨⟩
        exact hsub
      · rintro ⟨⟨target, hleads, hsub⟩, hes⟩
        exact ⟨target, hleads, hsub sub rfl, hes⟩

/-- A path leads to at most one place. -/
theorem PathTo.unique (hmodel : model.Coherent) (ht : t ∈ model.types) {X Y : Target}
    (hX : Target.PathTo model (.entity t) p.steps X)
    (hY : Target.PathTo model (.entity t) p.steps Y) : X = Y := by
  have hresolve := (Target.resolve_eq_ok_iff hmodel ht).mpr hX
  rw [(Target.resolve_eq_ok_iff hmodel ht).mpr hY] at hresolve
  exact (Except.ok.inj hresolve).symm

/-- A query passes if its own paths fit the type, and if the queries of its expansions pass where
these lead. -/
theorem validate_eq_ok (hmodel : model.Coherent) (ht : t ∈ model.types) :
    q.validate model t = .ok () ↔ PathsFit model t q ∧
      ∀ path sub target, ⟨path, some sub⟩ ∈ q.expand →
        Target.PathTo model (.entity t) path.steps (.entity target) →
          sub.validate model target = .ok () := by
  obtain ⟨top, skip, count, format, filter, orderBy, select, expand⟩ := q
  simp only [validate, checkPaths, check_bind_eq_ok, forM_eq_ok, checkExpression_eq_ok hmodel ht,
    checkSelected_eq_ok hmodel ht, validateExpands_eq_ok_iff, Target.resolve_eq_ok_iff hmodel ht,
    Option.mem_toList]
  constructor
  · rintro ⟨⟨hfilter, horderBy, hselect⟩, hexpand⟩
    refine ⟨⟨hfilter, horderBy, hselect, fun x hx ↦ ?_⟩, fun path sub target hx hleads ↦ ?_⟩
    · obtain ⟨target, hleads, -⟩ := hexpand x hx
      exact ⟨target, hleads⟩
    · obtain ⟨target', hleads', hsub⟩ := hexpand _ hx
      cases PathTo.unique hmodel ht hleads hleads'
      exact hsub sub rfl
  · rintro ⟨hfit, hexpand⟩
    refine ⟨⟨hfit.filter, hfit.orderBy, hfit.select⟩, fun x hx ↦ ?_⟩
    obtain ⟨target, hleads⟩ := hfit.expand x hx
    refine ⟨target, hleads, fun sub hsub ↦ hexpand x.path sub target ?_ hleads⟩
    rw [Option.mem_def] at hsub
    rw [← hsub]
    exact hx

/-! ### All levels -/

private theorem Reached.validate (hmodel : model.Coherent) (ht : t ∈ model.types)
    (hq : q.validate model t = .ok ()) {t' : EntityType} (h : Reached model t q t' q') :
    t' ∈ model.types ∧ q'.validate model t' = .ok () := by
  induction h with
  | self => exact ⟨ht, hq⟩
  | expand _ expanded leads ih =>
    obtain ⟨ht', hq'⟩ := ih
    have htarget := leads.isOf (Target.isOf_entity ht')
    exact ⟨htarget _ rfl, ((validate_eq_ok hmodel ht').mp hq').2 _ _ _ expanded leads⟩

private theorem Reached.of_expand (expanded : ⟨path, some sub⟩ ∈ q.expand)
    (leads : Target.PathTo model (.entity t) path.steps (.entity target)) {t' : EntityType}
    (h : Reached model target sub t' q') : Reached model t q t' q' := by
  induction h with
  | self => exact .expand .self expanded leads
  | expand _ expanded' leads' ih => exact .expand ih expanded' leads'

/-- The query of an expansion is smaller than the query that expands. -/
theorem sizeOf_lt_of_mem_expand (h : ⟨path, some sub⟩ ∈ q.expand) :
    sizeOf sub < sizeOf q := by
  obtain ⟨top, skip, count, format, filter, orderBy, select, expand⟩ := q
  have hlist := List.sizeOf_lt_of_mem h
  simp only [Expand.mk.sizeOf_spec, Option.some.sizeOf_spec] at hlist
  simp only [Query.mk.sizeOf_spec]
  omega

-- A query passes if the paths of all queries that are reached from it fit: by induction on its
-- size, which is that of its nesting.
private theorem validate_of_reached (hmodel : model.Coherent) (q : Query) (t : EntityType)
    (ht : t ∈ model.types)
    (hfit : ∀ t' q', Reached model t q t' q' → PathsFit model t' q') :
    q.validate model t = .ok () := by
  refine (validate_eq_ok hmodel ht).mpr ⟨hfit t q .self, fun path sub target hx hleads ↦ ?_⟩
  have htarget := hleads.isOf (Target.isOf_entity ht) _ rfl
  have hsize : sizeOf sub < sizeOf q := sizeOf_lt_of_mem_expand hx
  exact validate_of_reached hmodel sub target htarget fun t' q' h ↦
    hfit t' q' (h.of_expand hx hleads)
termination_by sizeOf q

end Query

/-- A query can be asked of a type exactly if, in the query and in every query that is reached from
it over expansions, filters and orders only have paths that end at values, selected paths lead
somewhere, and expanded paths lead to entities. -/
theorem validates_iff_paths_fit (b : Builder) (hb : b.Grown) (model : Registry)
    (h : b.finalize = .ok model) (t : EntityType) (ht : t ∈ model.types) (q : Query) :
    q.validate model t = .ok () ↔
      ∀ t' q', Query.Reached model t q t' q' → Query.PathsFit model t' q' := by
  have hmodel := hb.coherent h
  constructor
  · intro hq t' q' hreached
    obtain ⟨ht', hq'⟩ := hreached.validate hmodel ht hq
    exact ((Query.validate_eq_ok hmodel ht').mp hq').1
  · exact Query.validate_of_reached hmodel q t ht

/-- Rooms by their keys with some of their exhibits, and these with the rooms that they are in. -/
def Museum.tour : Query :=
  { Query.empty with
    orderBy := [⟨.path ⟨[.primaryKey]⟩, false⟩]
    expand :=
      [⟨⟨[.navigation "exhibits"]⟩, some { Query.empty with
          filter := some (.unary .not (.binary .equal
            (.path ⟨[.property "notes", .customLink "seen" "Room", .property "name"]⟩)
            (.call "concat" [.path ⟨[.property "maker", .custom "origin", .index 2]⟩,
              .constant (.string "o'b")])))
          select := .ofList [⟨[.property "sizes", .index 0]⟩, ⟨[.navigation "room"]⟩]
          expand := [⟨⟨[.navigation "room"]⟩, none⟩] }⟩] }

/-- The theorem at a query of rooms with a query of their exhibits. -/
theorem museum_tour_validates :
    Museum.tour.validate Museum.model Museum.room = .ok () ∧
      ∀ t' q', Query.Reached Museum.model Museum.room Museum.tour t' q' →
        Query.PathsFit Museum.model t' q' := by
  have hgrown := Builder.Grown.empty.foldl Museum.declarations
  have hiff := validates_iff_paths_fit _ hgrown Museum.model rfl Museum.room Museum.room_mem
    Museum.tour
  have hvalid : Museum.tour.validate Museum.model Museum.room = .ok () := by decide +kernel
  exact ⟨hvalid, hiff.mp hvalid⟩

end SensorQuery
