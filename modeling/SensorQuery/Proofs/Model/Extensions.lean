import SensorQuery.Proofs.Model.Finalized

/-!
# Extensions by name

The code of an extension is any procedure that works on the builder: it looks at what came of each
operation before it goes on, may go on after one that failed, and may apply further extensions
(`Procedure`). An extension is refused if its name is recorded, but the name is recorded only when
the code is done. So a name is recorded twice exactly if an extension of the name is completed
inside the code of another one that is completed as well (`Procedure.Reenters`).
-/

namespace SensorQuery

open Fallible

/-! ### Procedures -/

/-- An operation on a builder that applies no extension. -/
inductive Operation where
  | entityType (d : EntityDeclaration)
  | property (owner : String) (p : EntityProperty)
  | complexType (c : ComplexType)
  | link (l : Link)

/-- The step that does nothing but the operation. -/
def Operation.declaration : Operation → Declaration
  | .entityType d => .entityType d
  | .property owner p => .property owner p
  | .complexType c => .complexType c
  | .link l => .link l

/-- Code that works on a builder. What it does next depends on the builder after the last operation
and on the error that came of it. -/
inductive Procedure where
  | finish (result : Option ModelError)
  | perform (op : Operation) (next : Builder × Option ModelError → Procedure)
  | apply (name : String) (body : Procedure) (next : Builder × Option ModelError → Procedure)

namespace Builder

/-- The builder after an extension with the code, with the error that ended it. -/
def applying (b : Builder) (name : String) (code : Builder → Builder × Option ModelError) :
    Builder × Option ModelError :=
  if b.extensions.contains name then (b, some (.duplicateExtension name))
  else
    match code b with
    | (more, none) => ({ more with extensions := more.extensions ++ [name] }, none)
    | (more, some e) => (more, some e)

private theorem declare_extend (b : Builder) (name : String) (steps : List Declaration) :
    b.declare (.extend name steps) = b.applying name (declareAll · steps) := by
  rw [declare]
  rfl

variable {b : Builder} {name : String} {code : Builder → Builder × Option ModelError}

private theorem applying_of_mem (h : name ∈ b.extensions) :
    b.applying name code = (b, some (.duplicateExtension name)) := by
  rw [applying, if_pos (by simpa using h)]

/-- The name is recorded behind all names that the code records, if the code does not fail. -/
theorem extensions_applying (h : name ∉ b.extensions) :
    (b.applying name code).1.extensions =
      (code b).1.extensions ++ if (code b).2 = none then [name] else [] := by
  rw [applying, if_neg (by simpa using h)]
  rcases code b with ⟨more, _ | e⟩ <;> simp

/-- Only extensions record names. -/
@[simp] theorem extensions_declare (b : Builder) (op : Operation) :
    (b.declare op.declaration).1.extensions = b.extensions := by
  cases op with
  | entityType d =>
    rw [Operation.declaration, declare]
    rcases h : b.addEntityType d with e | more
    · rfl
    · obtain ⟨-, -, rfl⟩ := addEntityType_eq_ok h
      rfl
  | complexType c =>
    rw [Operation.declaration, declare]
    rcases h : b.addComplexType c with e | more
    · rfl
    · obtain ⟨-, rfl⟩ := addComplexType_eq_ok h
      rfl
  | property => rw [Operation.declaration, declare]
  | link => rw [Operation.declaration, declare]

end Builder

namespace Procedure

/-- The builder after the procedure, with the error that ended it. -/
def run : Procedure → Builder → Builder × Option ModelError
  | .finish result, b => (b, result)
  | .perform op next, b =>
    let r := b.declare op.declaration
    (next r).run r.1
  | .apply name body next, b =>
    let r := b.applying name body.run
    (next r).run r.1

mutual

/-- The procedure that does the step and goes on. -/
def ofStep : Declaration → (Builder × Option ModelError → Procedure) → Procedure
  | .entityType d, next => .perform (.entityType d) next
  | .property owner p, next => .perform (.property owner p) next
  | .complexType c, next => .perform (.complexType c) next
  | .link l, next => .perform (.link l) next
  | .extend name steps, next => .apply name (ofSteps steps) next

/-- The procedure that does the steps in order, up to the first that fails. -/
def ofSteps : List Declaration → Procedure
  | [] => .finish none
  | step :: steps => ofStep step fun r ↦ match r.2 with
    | none => ofSteps steps
    | some e => .finish (some e)

end

mutual

private theorem run_ofStep (step : Declaration) (next : Builder × Option ModelError → Procedure)
    (b : Builder) :
    (ofStep step next).run b = (next (b.declare step)).run (b.declare step).1 := by
  cases step with
  | extend name steps =>
    rw [ofStep, run, funext (run_ofSteps steps), Builder.declare_extend]
  | _ => rfl

/-- A procedure may be steps in order. -/
theorem run_ofSteps (steps : List Declaration) (b : Builder) :
    (ofSteps steps).run b = b.declareAll steps := by
  cases steps with
  | nil => rw [ofSteps, run, Builder.declareAll]
  | cons step steps =>
    rw [ofSteps, run_ofStep, Builder.declareAll]
    rcases b.declare step with ⟨more, _ | e⟩
    · exact run_ofSteps steps more
    · rfl

end

/-- The names of the extensions that the procedure completes, in order. -/
def completed : Procedure → Builder → List String
  | .finish _, _ => []
  | .perform op next, b =>
    let r := b.declare op.declaration
    (next r).completed r.1
  | .apply name body next, b =>
    let r := b.applying name body.run
    (if name ∈ b.extensions then []
      else body.completed b ++ if (body.run b).2 = none then [name] else []) ++
    (next r).completed r.1

/-- The names that are recorded are those of the extensions that are completed. -/
theorem extensions_run (p : Procedure) (b : Builder) :
    (p.run b).1.extensions = b.extensions ++ p.completed b := by
  induction p generalizing b with
  | finish result => simp [run, completed]
  | perform op next ih => simp [run, completed, ih]
  | apply name body next ihbody ihnext =>
    simp only [run, completed, ihnext]
    split
    · next hmem => rw [Builder.applying_of_mem hmem, List.nil_append]
    · next hnew => simp only [Builder.extensions_applying hnew, ihbody, List.append_assoc]

/-- In the course of the procedure an extension is completed whose code completes another one of
its name. -/
inductive Reenters : Procedure → Builder → Prop where
  | own {b : Builder} {name : String} {body : Procedure}
    {next : Builder × Option ModelError → Procedure} (isNew : name ∉ b.extensions)
    (done : (body.run b).2 = none) (again : name ∈ body.completed b) :
    Reenters (.apply name body next) b
  | inside {b : Builder} {name : String} {body : Procedure}
    {next : Builder × Option ModelError → Procedure} (isNew : name ∉ b.extensions)
    (h : Reenters body b) : Reenters (.apply name body next) b
  | applied {b : Builder} {name : String} {body : Procedure}
    {next : Builder × Option ModelError → Procedure}
    (h : Reenters (next (b.applying name body.run)) (b.applying name body.run).1) :
    Reenters (.apply name body next) b
  | performed {b : Builder} {op : Operation} {next : Builder × Option ModelError → Procedure}
    (h : Reenters (next (b.declare op.declaration)) (b.declare op.declaration).1) :
    Reenters (.perform op next) b

variable {b : Builder} {name : String} {body : Procedure}
  {next : Builder × Option ModelError → Procedure}

private theorem reenters_apply_of_mem (h : name ∈ b.extensions) :
    (Procedure.apply name body next).Reenters b ↔
      (next (b.applying name body.run)).Reenters (b.applying name body.run).1 := by
  constructor
  · rintro (⟨isNew, -, -⟩ | ⟨isNew, -⟩ | ⟨hnext⟩)
    · exact absurd h isNew
    · exact absurd h isNew
    · exact hnext
  · exact .applied

private theorem reenters_apply (h : name ∉ b.extensions) :
    (Procedure.apply name body next).Reenters b ↔
      (body.Reenters b ∨ (body.run b).2 = none ∧ name ∈ body.completed b) ∨
        (next (b.applying name body.run)).Reenters (b.applying name body.run).1 := by
  constructor
  · rintro (⟨-, done, again⟩ | ⟨-, hbody⟩ | ⟨hnext⟩)
    · exact .inl (.inr ⟨done, again⟩)
    · exact .inl (.inl hbody)
    · exact .inr hnext
  · rintro ((hbody | ⟨done, again⟩) | hnext)
    · exact .inside h hbody
    · exact .own h done again
    · exact .applied hnext

-- A new name is recorded once, unless the code records it too and is completed.
private theorem nodup_applying (h : name ∉ b.extensions) :
    (b.applying name body.run).1.extensions.Nodup ↔
      (body.run b).1.extensions.Nodup ∧
        ¬ ((body.run b).2 = none ∧ name ∈ body.completed b) := by
  rw [Builder.extensions_applying h]
  split
  · next done =>
    rw [← List.concat_eq_append, List.nodup_concat, extensions_run]
    simp [h, done, and_comm]
  · next failed => simp [failed]

/-- The names stay distinct exactly if no extension is completed inside one of its name. -/
theorem nodup_run_iff (p : Procedure) (b : Builder) :
    (p.run b).1.extensions.Nodup ↔ b.extensions.Nodup ∧ ¬ p.Reenters b := by
  induction p generalizing b with
  | finish result => exact (and_iff_left nofun).symm
  | perform op next ih =>
    rw [run, ih, Builder.extensions_declare]
    refine and_congr_right fun _ ↦ not_congr ⟨.performed, ?_⟩
    rintro ⟨⟩
    assumption
  | apply name body next ihbody ihnext =>
    rw [run, ihnext]
    by_cases h : name ∈ b.extensions
    · rw [reenters_apply_of_mem h, Builder.applying_of_mem h]
    · rw [reenters_apply h, nodup_applying h, ihbody, not_or, not_or, and_assoc, and_assoc,
        and_assoc]

end Procedure

/-- The registry lists the extensions that are recorded. -/
theorem Builder.extensions_of_finalize {b : Builder} {model : Registry}
    (h : b.finalize = .ok model) : model.extensions = b.extensions := by
  obtain ⟨_, -, h⟩ := bind_eq_ok.mp h
  obtain ⟨_, -, h⟩ := bind_eq_ok.mp h
  obtain ⟨_, -, h⟩ := bind_eq_ok.mp h
  obtain ⟨-, h⟩ := check_bind_eq_ok.mp h
  rw [pure_eq_ok.mp h]
  rfl

/-- Whatever code works on a new builder, no name of an extension is recorded twice if and only if
no extension is completed inside the code of one of its name that is completed as well. The registry
lists the names that are recorded, and steps in order are a case of such code. -/
theorem extensions_distinct_iff (code : Procedure) (steps : List Declaration) :
    ((code.run .empty).1.extensions.Nodup ↔ ¬ code.Reenters .empty) ∧
      (∀ model, (code.run .empty).1.finalize = .ok model →
        (model.extensions.Nodup ↔ ¬ code.Reenters .empty)) ∧
      ((Builder.empty.declareAll steps).1.extensions.Nodup ↔
        ¬ (Procedure.ofSteps steps).Reenters .empty) := by
  have hrun (code : Procedure) :
      (code.run .empty).1.extensions.Nodup ↔ ¬ code.Reenters .empty :=
    (code.nodup_run_iff .empty).trans (and_iff_right List.nodup_nil)
  refine ⟨hrun code, fun model h ↦ ?_, ?_⟩
  · rw [Builder.extensions_of_finalize h, hrun]
  · rw [← Procedure.run_ofSteps, hrun]

/-- An extension for tours, which applies one for audio guides twice and goes on after the second
has been refused. -/
def Museum.tours : Procedure :=
  .apply "tours"
    (.apply "audio" (.finish none) fun _ ↦ .apply "audio" (.finish none) fun _ ↦ .finish none)
    fun r ↦ .finish r.2

/-- The theorem at an extension whose code goes on after one that it applies has failed. -/
theorem museum_tours_are_distinct :
    (Museum.tours.run .empty).1.extensions = ["audio", "tours"] ∧
      (Museum.tours.run .empty).1.finalize = .ok (.ofTable .empty [] ["audio", "tours"]) ∧
      ¬ Museum.tours.Reenters .empty ∧ ["audio", "tours"].Nodup := by
  have hrun : (Museum.tours.run .empty).1.extensions = ["audio", "tours"] := by decide
  have hmodel : (Museum.tours.run .empty).1.finalize =
      .ok (.ofTable .empty [] ["audio", "tours"]) := by rfl
  obtain ⟨hdistinct, hregistry, -⟩ := extensions_distinct_iff Museum.tours []
  have hnot : ¬ Museum.tours.Reenters .empty := hdistinct.mp (by rw [hrun]; decide)
  exact ⟨hrun, hmodel, hnot, (hregistry _ hmodel).mpr hnot⟩

/-- Names are recorded twice: an extension may apply another one of its own name. -/
theorem museum_audio_is_recorded_twice :
    ¬ ∀ (steps : List Declaration) (model : Registry), Builder.build steps = .ok model →
      model.extensions.Nodup := by
  intro h
  have hbuild : Builder.build [.extend "audio" [.extend "audio" []]] =
      .ok (.ofTable .empty [] ["audio", "audio"]) := by rfl
  have htwice : ¬ ["audio", "audio"].Nodup := by decide
  exact htwice (h _ _ hbuild)

end SensorQuery
