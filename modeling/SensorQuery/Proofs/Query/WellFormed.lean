import SensorQuery.Proofs.Model.Finalized
import SensorQuery.Proofs.Query.Formed

/-!
# Expressions that fit the catalog and the model

Whatever is read as a filter or as an order is well formed at every node (`Expression.WellFormed`):
calls are of registered functions, with arguments in the number and of the kinds that these take,
and paths go by names that the model declares (`PropertyPath.WellFormed`). The rules are written
down apart from the checks of the grammar, which are shown to enforce them.
-/

namespace SensorQuery

/-! ### Kinds of arguments -/

namespace ArgumentKind

/-- A constant of the kind may stand where an argument of this kind is expected. -/
inductive Takes : ArgumentKind → Literal.Kind → Prop where
  | any (kind : Literal.Kind) : Takes .any kind
  | null (expected : ArgumentKind) : Takes expected .null
  | boolean : Takes .boolean .boolean
  | numeric : Takes .numeric .numeric
  | text : Takes .text .text
  | temporal : Takes .temporal .temporal
  | geometry : Takes .geometry .geometry

private theorem takes_of_admits {expected : ArgumentKind} {kind : Literal.Kind}
    (h : expected.admits kind = true) : expected.Takes kind := by
  cases expected <;> cases kind <;> first | constructor | cases h

/-- Results of the kind `b` may stand where the kind `a` is expected. -/
theorem compatible_iff {a b : ArgumentKind} :
    a.compatible b = true ↔ a = .any ∨ b = .any ∨ a = b := by
  simp [compatible, or_assoc]

end ArgumentKind

/-- The function expects an argument of the kind at the position. The last kind of its list stands
for all positions behind the list. -/
inductive Signature.Expects (f : Signature) : Nat → ArgumentKind → Prop where
  | listed {position : Nat} {kind : ArgumentKind} (h : f.parameters[position]? = some kind) :
    Expects f position kind
  | last {position : Nat} {kind : ArgumentKind} (behind : f.parameters.length ≤ position)
    (h : f.parameters.getLast? = some kind) : Expects f position kind
  | unlisted (position : Nat) (h : f.parameters = []) : Expects f position .any

private theorem Signature.expects_parameter (f : Signature) (position : Nat) :
    f.Expects position (f.parameter position) := by
  unfold parameter
  cases hlisted : f.parameters[position]? with
  | some kind => exact .listed hlisted
  | none =>
    have hbehind : f.parameters.length ≤ position := List.getElem?_eq_none_iff.mp hlisted
    cases hlast : f.parameters.getLast? with
    | some kind => exact .last hbehind hlast
    | none => exact .unlisted position (List.getLast?_eq_none_iff.mp hlast)

/-! ### Paths -/

namespace PropertyPath

/-- The steps go on from a place of the sort by names that the model declares: over navigation
properties from entity to entity, to the key and no further, or into an entity property, whose parts
may be links back to entities. -/
inductive StepsFrom (ctx : Context) : Position → List PathStep → Prop where
  | done (position : Position) : StepsFrom ctx position []
  | primaryKey : StepsFrom ctx .entity [.primaryKey]
  | navigation {name : String} {steps : List PathStep}
    (declared : ∃ t ∈ ctx.model.types, ∃ n, .navigation n ∈ t.properties ∧ n.name = name)
    (more : StepsFrom ctx .entity steps) : StepsFrom ctx .entity (.navigation name :: steps)
  | property {name : String} {steps : List PathStep}
    (declared : ∃ t ∈ ctx.model.types, ∃ p, .entity p ∈ t.properties ∧ p.name = name)
    (more : StepsFrom ctx .value steps) : StepsFrom ctx .entity (.property name :: steps)
  | custom {name : String} {steps : List PathStep} (more : StepsFrom ctx .value steps) :
    StepsFrom ctx .value (.custom name :: steps)
  | index {i : UInt64} {steps : List PathStep} (more : StepsFrom ctx .value steps) :
    StepsFrom ctx .value (.index i :: steps)
  | customLink {name target : String} {steps : List PathStep} (on : ctx.customLinks = true)
    (registered : ∃ t ∈ ctx.model.types, t.name = target) (more : StepsFrom ctx .entity steps) :
    StepsFrom ctx .value (.customLink name target :: steps)

/-- The path has a step, and its steps go on from an entity. -/
structure WellFormed (ctx : Context) (p : PropertyPath) : Prop where
  ne_nil : p.steps ≠ []
  steps : StepsFrom ctx .entity p.steps

variable {ctx : Context}

-- Sorting a step allows it, in front of whatever is allowed where it leads.
private theorem StepsFrom.of_classifyStep {position next : Position} {raw : RawStep}
    {step : PathStep} {steps : List PathStep}
    (h : classifyStep ctx position raw = .ok (step, next)) (more : StepsFrom ctx next steps)
    (hlast : next = .key → steps = []) : StepsFrom ctx position (step :: steps) := by
  cases classifyStep_eq_ok_iff.mp h with
  | primaryKey =>
    cases hlast rfl
    exact .primaryKey
  | navigation notAlias link => exact .navigation (Registry.isNavigationName_iff.mp link) more
  | property notAlias notLink value =>
    exact .property (Registry.isEntityPropertyName_iff.mp value) more
  | customLink on parts =>
    obtain ⟨-, t, ht⟩ := customLink?_eq_some parts
    exact .customLink on ⟨t, Registry.name_of_entityType? ht⟩ more
  | custom => exact .custom more
  | index i => exact .index more

private theorem stepsFrom_of_classify {position : Position} {raws : List RawStep}
    {steps : List PathStep} (h : classify ctx position raws = .ok steps) :
    StepsFrom ctx position steps := by
  induction raws generalizing position steps with
  | nil =>
    cases h
    exact .done position
  | cons raw raws ih =>
    obtain ⟨⟨step, next⟩, more, hstep, hmore, rfl⟩ := classify_cons h
    refine .of_classifyStep hstep (ih hmore) ?_
    -- No step can be sorted behind the key.
    rintro rfl
    cases raws with
    | nil =>
      cases hmore
      rfl
    | cons =>
      obtain ⟨_, _, hbehind, -⟩ := classify_cons hmore
      cases hbehind

/-- Every path that is read is well formed. -/
theorem wellFormed_of_scan {s rest : List Char} {p : PropertyPath}
    (h : scan ctx s = .found p rest) : p.WellFormed ctx := by
  obtain ⟨w, more, _, hformed, -, -⟩ := exists_of_scan h
  refine ⟨?_, stepsFrom_of_classify hformed.sorted⟩
  obtain ⟨_, _, -, -, hsteps⟩ := classify_cons hformed.sorted
  rw [hsteps]
  exact List.cons_ne_nil _ _

end PropertyPath

/-! ### Expressions -/

namespace Expression

/-- The expression fits where a call expects an argument of the kind: a constant by its own kind, a
call by the kind that its function returns, and anything else whatever it turns out to be. -/
inductive Fits (functions : Catalog) (expected : ArgumentKind) : Expression → Prop where
  | constant {c : Literal} (takes : expected.Takes c.kind) : Fits functions expected (.constant c)
  | call {inner : Signature} {arguments : List Expression}
    (found : functions.get? inner.name = some inner)
    (agree : expected = .any ∨ inner.returns = .any ∨ expected = inner.returns) :
    Fits functions expected (.call inner.name arguments)
  | path (p : PropertyPath) : Fits functions expected (.path p)
  | binary (op : BinaryOperator) (left right : Expression) :
    Fits functions expected (.binary op left right)
  | unary (op : UnaryOperator) (operand : Expression) :
    Fits functions expected (.unary op operand)

/-- Every call in the expression is one that the catalog allows, under the registered spelling, and
every path is one that the model and the settings allow. -/
inductive WellFormed (ctx : Context) : Expression → Prop where
  | constant (c : Literal) : WellFormed ctx (.constant c)
  | path {p : PropertyPath} (wellFormed : p.WellFormed ctx) : WellFormed ctx (.path p)
  | binary {op : BinaryOperator} {left right : Expression} (wellFormedLeft : WellFormed ctx left)
    (wellFormedRight : WellFormed ctx right) : WellFormed ctx (.binary op left right)
  | unary {op : UnaryOperator} {operand : Expression} (wellFormed : WellFormed ctx operand) :
    WellFormed ctx (.unary op operand)
  | call {f : Signature} {arguments : List Expression}
    (registered : f ∈ ctx.functions.signatures)
    (found : ctx.functions.get? f.name = some f)
    (arity : f.arity.accepts arguments.length = true)
    (fits : ∀ position e, arguments[position]? = some e →
      ∃ expected, f.Expects position expected ∧ e.Fits ctx.functions expected)
    (wellFormed : ∀ e ∈ arguments, WellFormed ctx e) : WellFormed ctx (.call f.name arguments)

variable {ctx : Context}

private theorem misfit?_of_argumentError? {functions : Catalog} {f : Signature} {first : Nat}
    {arguments : List Expression} (h : argumentError? functions f first arguments = none)
    {position : Nat} {e : Expression} (he : arguments[position]? = some e) :
    misfit? functions (f.parameter (first + position)) e = none := by
  induction arguments generalizing first position with
  | nil => cases he
  | cons a arguments ih =>
    rw [argumentError?] at h
    split at h
    · cases h
    · next hfits =>
      cases position with
      | zero =>
        cases he
        exact hfits
      | succ position =>
        rw [Nat.add_comm position 1, ← Nat.add_assoc]
        exact ih h he

private theorem WellFormed.fits_of_misfit? {e : Expression}
    (he : e.WellFormed ctx) {expected : ArgumentKind}
    (h : misfit? ctx.functions expected e = none) : e.Fits ctx.functions expected := by
  cases he with
  | constant c =>
    rw [misfit?] at h
    split at h
    · next hadmits => exact .constant (ArgumentKind.takes_of_admits hadmits)
    · cases h
  | path _ => exact .path _
  | binary _ _ => exact .binary _ _ _
  | unary _ => exact .unary _ _
  | call _ hfound _ _ _ =>
    simp only [misfit?, hfound] at h
    split at h
    · next hagree => exact .call hfound (ArgumentKind.compatible_iff.mp hagree)
    · cases h

/-- Each way to put well-formed expressions together gives a well-formed one; only calls need their
checks for it. -/
theorem hereditary_wellFormed (ctx : Context) : Hereditary ctx (WellFormed ctx) where
  constant _ := .constant _
  path _ _ hp := .path (PropertyPath.wellFormed_of_scan hp)
  binary hleft hright _ _ := .binary hleft hright
  not hoperand _ := .unary hoperand
  negate hoperand := .unary hoperand
  call _ harguments hmade := by
    obtain ⟨f, hget, haccepts, hfits, rfl⟩ := makeCall_eq_ok.mp hmade
    obtain ⟨hf, -, hself⟩ := Catalog.get?_eq_some hget
    refine .call hf hself haccepts (fun position e he ↦ ?_) harguments
    have hmisfit := misfit?_of_argumentError? hfits he
    rw [Nat.zero_add] at hmisfit
    exact ⟨_, f.expects_parameter position,
      (harguments e (List.mem_of_getElem? he)).fits_of_misfit? hmisfit⟩

end Expression

/-- Every filter and every expression to sort by is well formed at each of its nodes, whatever the
model, the catalog and the settings that it was read by. -/
theorem expressions_are_well_formed (ctx : Context) (text : String) :
    (∀ e, Expression.parse ctx text = .ok e → e.WellFormed ctx) ∧
    ∀ orders, Order.parse ctx text = .ok orders → ∀ o ∈ orders, o.expression.WellFormed ctx := by
  have hereditary := Expression.hereditary_wellFormed ctx
  exact ⟨fun e h ↦ hereditary.of_parse h, fun orders h ↦ hereditary.of_parse_orders h⟩

/-- The museum with two functions, one of any number of arguments, and with links in its values. -/
def Museum.linkContext : Context where
  model := Museum.model
  functions :=
    ⟨[⟨"Max", .math, .atLeast 1, [.numeric], .numeric⟩,
      .ofParameters "length" .string [.text] .numeric]⟩
  customLinks := true

/-- What `max(1,LENGTH(notes/seen.Exhibit/room/name),null)` is read as. -/
def Museum.largest : Expression :=
  .call "Max"
    [.constant (.integer 1),
      .call "length"
        [.path ⟨[.property "notes", .customLink "seen" "Exhibit", .navigation "room",
          .property "name"]⟩],
      .constant .null]

/-- The theorem at a call within a call, with a path over a link and a constant behind the list of
kinds. -/
theorem museum_expressions_are_well_formed :
    Museum.largest.WellFormed Museum.linkContext ∧
      ∀ o ∈ [Order.mk Museum.largest true, ⟨.path ⟨[.primaryKey]⟩, false⟩],
        o.expression.WellFormed Museum.linkContext := by
  have hfilter : Expression.parse Museum.linkContext
      "max(1,LENGTH(notes/seen.Exhibit/room/name),null)" = .ok Museum.largest := by decide +kernel
  have horders : Order.parse Museum.linkContext
      "max(1, LENGTH(notes/seen.Exhibit/room/name),null) desc,@iot.id" =
        .ok [⟨Museum.largest, true⟩, ⟨.path ⟨[.primaryKey]⟩, false⟩] := by decide +kernel
  exact ⟨(expressions_are_well_formed _ _).1 _ hfilter,
    (expressions_are_well_formed _ _).2 _ horders⟩

end SensorQuery
