import SensorQuery.Proofs.Query.Parts
import SensorQuery.Proofs.Query.Validation

/-!
# Settled queries

A name that some type of the model has for links is read as a link wherever it is read against an
entity, whether or not the type at hand has it for a value. So no path that is read goes to a value
of an entity by the name of a link (`PropertyPath.Settled`), and neither do the paths of
expressions and queries, at any depth.
-/

namespace SensorQuery

open Fallible Scanner

/-- No step leads from an entity to a value by a name that the model has for links. -/
def PropertyPath.Settled (model : Registry) (p : PropertyPath) : Prop :=
  ∀ name, .property name ∈ p.steps → model.isNavigationName name = false

/-- All paths in the expression are settled. -/
def Expression.Settled (model : Registry) (e : Expression) : Prop :=
  ∀ p, e.Mentions p → p.Settled model

/-- The path stands somewhere in the query or in a query of its expansions, at any depth. -/
inductive Query.Mentions (p : PropertyPath) : Query → Prop where
  | filter {q : Query} {e : Expression} (he : e ∈ q.filter) (h : e.Mentions p) : Mentions p q
  | orderBy {q : Query} {o : Order} (ho : o ∈ q.orderBy) (h : o.expression.Mentions p) :
    Mentions p q
  | select {q : Query} (h : p ∈ q.select.paths) : Mentions p q
  | expand {q : Query} {x : Expand Query} (hx : x ∈ q.expand) (h : x.path = p) : Mentions p q
  | nested {q sub : Query} {x : Expand Query} (hx : x ∈ q.expand) (hsub : sub ∈ x.query)
    (h : Mentions p sub) : Mentions p q

/-- All paths in the query are settled. -/
def Query.Settled (model : Registry) (q : Query) : Prop := ∀ p, q.Mentions p → p.Settled model

/-- The path of the expansion is settled, and its query is. -/
def Expand.Settled (model : Registry) (x : Expand Query) : Prop :=
  x.path.Settled model ∧ ∀ q ∈ x.query, q.Settled model

variable {model : Registry} {ctx : Context}

/-! ### Parts of settled queries -/

namespace Expression

/-- A constant names no property. -/
theorem settled_constant (c : Literal) : (Expression.constant c).Settled model := nofun

/-- A path as an expression is settled if it is as a path. -/
theorem settled_path {p : PropertyPath} : (Expression.path p).Settled model ↔ p.Settled model := by
  constructor
  · exact fun h ↦ h p .path
  · rintro h _ ⟨⟩
    exact h

/-- A binary operator is settled if its operands are. -/
theorem settled_binary {op : BinaryOperator} {left right : Expression} :
    (Expression.binary op left right).Settled model ↔
      left.Settled model ∧ right.Settled model := by
  constructor
  · exact fun h ↦ ⟨fun p hp ↦ h p (.left hp), fun p hp ↦ h p (.right hp)⟩
  · rintro ⟨hleft, hright⟩ p (_ | hp | hp)
    · exact hleft p hp
    · exact hright p hp

/-- A unary operator is settled if its operand is. -/
theorem settled_unary {op : UnaryOperator} {operand : Expression} :
    (Expression.unary op operand).Settled model ↔ operand.Settled model := by
  constructor
  · exact fun h p hp ↦ h p (.operand hp)
  · rintro h p ⟨hp⟩
    exact h p ‹_›

/-- A call is settled if its arguments are. -/
theorem settled_call {name : String} {arguments : List Expression} :
    (Expression.call name arguments).Settled model ↔ ∀ e ∈ arguments, e.Settled model := by
  constructor
  · exact fun h e he p hp ↦ h p (.argument he hp)
  · intro h p hp
    cases hp with
    | argument he hp => exact h _ he p hp

end Expression

namespace Query

/-- A query is settled if its filter, its orders, its selection and its expansions are. -/
theorem settled_iff {q : Query} : q.Settled model ↔
    (∀ e ∈ q.filter, e.Settled model) ∧ (∀ o ∈ q.orderBy, o.expression.Settled model) ∧
      (∀ p ∈ q.select.paths, p.Settled model) ∧ ∀ x ∈ q.expand, x.Settled model := by
  constructor
  · intro h
    refine ⟨fun e he p hp ↦ h p (.filter he hp), fun o ho p hp ↦ h p (.orderBy ho hp),
      fun p hp ↦ h p (.select hp), fun x hx ↦ ⟨h _ (.expand hx rfl), ?_⟩⟩
    exact fun sub hsub p hp ↦ h p (.nested hx hsub hp)
  · rintro ⟨hfilter, horderBy, hselect, hexpand⟩ p hp
    cases hp with
    | filter he hp => exact hfilter _ he p hp
    | orderBy ho hp => exact horderBy _ ho p hp
    | select hp => exact hselect p hp
    | expand hx hp => exact hp ▸ (hexpand _ hx).1
    | nested hx hsub hp => exact (hexpand _ hx).2 _ hsub p hp

end Query

namespace PropertyPath

private theorem flatten_hopsOf (steps : List PathStep) : (hopsOf steps).flatten = steps := by
  induction steps with
  | nil => rfl
  | cons step steps ih =>
    rw [hopsOf]
    split
    · rw [List.flatten_cons, ih, List.singleton_append]
    · split
      · next h =>
        rw [h] at ih
        simpa using ih
      · next h =>
        rw [h] at ih
        simpa using ih

/-- A path is settled if its hops are. -/
theorem forall_hops_settled_iff {p : PropertyPath} :
    (∀ hop ∈ p.hops, hop.Settled model) ↔ p.Settled model := by
  have hsteps (name : String) :
      .property name ∈ p.steps ↔ ∃ hop ∈ hopsOf p.steps, .property name ∈ hop := by
    rw [← List.mem_flatten, flatten_hopsOf]
  simp only [hops, List.forall_mem_map, Settled, hsteps]
  constructor
  · rintro h name ⟨hop, hhop, hname⟩
    exact h hop hhop name hname
  · exact fun h hop hhop name hname ↦ h name ⟨hop, hhop, hname⟩

end PropertyPath

/-- An expansion over several hops is settled if the hops and the query are. -/
theorem Query.settled_nestExpand {hops : List PropertyPath} {query : Option Query} :
    (nestExpand hops query).Settled model ↔
      (∀ hop ∈ hops, hop.Settled model) ∧ ∀ q ∈ query, q.Settled model := by
  induction hops with
  | nil => simp [nestExpand, Expand.Settled, PropertyPath.Settled]
  | cons hop hops ih =>
    cases hops with
    | nil => simp [nestExpand, Expand.Settled]
    | cons hop' hops =>
      have hinner : Settled model { empty with expand := [nestExpand (hop' :: hops) query] } ↔
          (nestExpand (hop' :: hops) query).Settled model := by
        simp [settled_iff, empty, Select.empty]
      rw [List.forall_mem_cons, and_assoc, ← ih, ← hinner]
      simp [nestExpand, Expand.Settled]

/-! ### What is read is settled -/

namespace PropertyPath

private theorem ne_property_of_classifyStep {position : Position} {raw : RawStep}
    {p : PathStep × Position} {name : String} (h : classifyStep ctx position raw = .ok p)
    (hname : p.1 = .property name) : ctx.model.isNavigationName name = false := by
  obtain ⟨step, next⟩ := p
  cases classifyStep_eq_ok_iff.mp h with
  | property notAlias notLink value =>
    cases hname
    exact notLink
  | _ => cases hname

private theorem settled_of_classify {position : Position} {raws : List RawStep}
    {steps : List PathStep} (h : classify ctx position raws = .ok steps) :
    Settled ctx.model ⟨steps⟩ := by
  induction raws generalizing position steps with
  | nil =>
    cases h
    exact nofun
  | cons raw raws ih =>
    obtain ⟨p, more, hstep, hmore, rfl⟩ := classify_cons h
    intro name hname
    rcases List.mem_cons.mp hname with hname | hname
    · exact ne_property_of_classifyStep hstep hname.symm
    · exact ih hmore name hname

private theorem settled_of_scan {s rest : List Char} {p : PropertyPath}
    (h : scan ctx s = .found p rest) : p.Settled ctx.model := by
  obtain ⟨raws, _, -, h⟩ := bind_eq_found.mp h
  obtain ⟨steps, _, hsteps, h⟩ := bind_eq_found.mp h
  cases h
  exact settled_of_classify (ofExcept_eq_found.mp hsteps).1

private theorem settled_of_parse {t : String} {p : PropertyPath} (h : parse ctx t = .ok p) :
    p.Settled ctx.model := by
  obtain ⟨rest, hscan, -⟩ := found_of_entire h
  exact settled_of_scan hscan

end PropertyPath

private theorem Expression.hereditary_settled : Hereditary ctx (Settled ctx.model) where
  constant _ := settled_constant _
  path _ _ hp := settled_path.mpr (PropertyPath.settled_of_scan hp)
  binary hleft hright _ _ := settled_binary.mpr ⟨hleft, hright⟩
  not hoperand _ := settled_unary.mpr hoperand
  negate hoperand := settled_unary.mpr hoperand
  call _ harguments hmade := by
    obtain ⟨f, -, -, -, rfl⟩ := makeCall_eq_ok.mp hmade
    exact settled_call.mpr harguments

namespace Query

private theorem settled_of_parseSelect {value : List Char} {s : Select}
    (h : parseSelect ctx value = .ok s) : ∀ p ∈ s.paths, p.Settled ctx.model := by
  obtain ⟨parts, -, h⟩ := bind_eq_ok.mp h
  refine foldlM_keeps (P := fun s ↦ ∀ p ∈ s.paths, p.Settled ctx.model) ?_ nofun h
  intro s item s' _ hs hitem
  obtain ⟨_, p, -, hp, rfl⟩ := selectItem_eq_ok.mp hitem
  exact (forall_insert_iff s p).mpr ⟨hs, PropertyPath.settled_of_parse hp⟩

/-- The own paths of a query whose parts were read are settled. -/
theorem PartsRead.settled {q : Query} (h : q.PartsRead ctx) :
    (∀ e ∈ q.filter, e.Settled ctx.model) ∧ (∀ o ∈ q.orderBy, o.expression.Settled ctx.model) ∧
      (∀ p ∈ q.select.paths, p.Settled ctx.model) ∧ ∀ x ∈ q.expand, x.path.Settled ctx.model := by
  refine ⟨fun e he ↦ ?_, ?_, ?_, fun x hx ↦ ?_⟩
  · obtain ⟨t, ht⟩ := h.filter e he
    exact Expression.hereditary_settled.of_parse ht
  · rcases h.orderBy with hnil | ⟨t, ht⟩
    · rw [hnil]
      exact nofun
    · exact Expression.hereditary_settled.of_parse_orders ht
  · rcases h.select with hempty | ⟨v, hv⟩
    · rw [hempty]
      exact nofun
    · exact settled_of_parseSelect hv
  · obtain ⟨t, p, hp, hhop⟩ := h.expand x hx
    exact PropertyPath.forall_hops_settled_iff.mpr (PropertyPath.settled_of_parse hp) _ hhop

/-- Every query that is read is settled in the model that it is read in: by the way to the place
where a path stands. -/
theorem settled_of_parse {t : String} {q : Query} (h : parse ctx t = .ok q) :
    q.Settled ctx.model := by
  intro p hp
  have hread := partsRead_of_parse h
  clear h
  induction hp with
  | filter he h => exact (hread _ (mem_all.mpr (.inl rfl))).settled.1 _ he p h
  | orderBy ho h => exact (hread _ (mem_all.mpr (.inl rfl))).settled.2.1 _ ho p h
  | select h => exact (hread _ (mem_all.mpr (.inl rfl))).settled.2.2.1 p h
  | expand hx h => exact h ▸ (hread _ (mem_all.mpr (.inl rfl))).settled.2.2.2 _ hx
  | nested hx hsub _ ih =>
    exact ih fun q' hq' ↦ hread q' (mem_all.mpr (.inr ⟨_, hx, _, hsub, hq'⟩))

end Query

end SensorQuery
