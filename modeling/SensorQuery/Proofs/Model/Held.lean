import SensorQuery.Proofs.Path.Run
import SensorQuery.Proofs.Path.Segment
import SensorQuery.Proofs.Query.Validation

/-!
# Types of held values

A finished model was asked for the complex types that its properties refer to. It was not asked for
those that fields of complex types refer to, where paths lead just as well. So no type is missing
exactly if none is missing among the fields, and then no path meets a missing one.
-/

namespace SensorQuery

open Fallible

namespace Registry

/-- Entities of the model hold values of the type: in a property, in a list, or in a field of a
registered complex type, however deep. -/
inductive Holds (model : Registry) : ValueType → Prop where
  | property {t : EntityType} {p : EntityProperty} (registered : t ∈ model.types)
    (own : .entity p ∈ t.properties) : Holds model p.valueType
  | element {type : ValueType} (h : Holds model (.list type)) : Holds model type
  | field {owner name : String} {c : ComplexType} {type : ValueType}
    (h : Holds model (.complex owner)) (registered : model.complexType? owner = some c)
    (has : c.field? name = some type) : Holds model type

/-- A complex type is registered under the name. -/
def HasComplex (model : Registry) (name : String) : Prop := ∃ c, model.complexType? name = some c

/-- Wherever a complex type is met, it is registered. -/
structure NothingDangles (model : Registry) : Prop where
  held : ∀ name, model.Holds (.complex name) → model.HasComplex name
  /-- Where the segments in front of others lead to in the text of a path. -/
  path : ∀ raw segments rest r suffix name,
    Segment.ofPath? raw = some (segments ++ rest) →
      Resolution.start.steps model segments = .ok (r, suffix) →
        r.place = .value (.complex name) → model.HasComplex name
  /-- Where a path of a query leads to. -/
  query : ∀ t ∈ model.types, ∀ p name,
    Target.resolve model t p = .ok (.value (.complex name)) → model.HasComplex name

/-- The innermost types of fields are registered, if they are complex. -/
def FieldsRegistered (model : Registry) : Prop :=
  ∀ owner c, model.Holds (.complex owner) → model.complexType? owner = some c →
    ∀ field type, c.field? field = some type →
      ∀ name, type.innermost = .complex name → model.HasComplex name

variable {model : Registry} {type : ValueType}

/-- The elements of nested lists are held where the lists are. -/
theorem Holds.innermost (h : model.Holds type) : model.Holds type.innermost := by
  induction type with
  | list type ih => exact ih (.element h)
  | _ => exact h

/-- The innermost type of what is held is registered, if those of properties and fields are: by the
ways in which a value is held. -/
theorem Holds.registered (hfields : model.FieldsRegistered)
    (hproperties : ∀ t ∈ model.types, ∀ p, .entity p ∈ t.properties →
      ∀ name, p.valueType.innermost = .complex name → model.HasComplex name)
    (h : model.Holds type) : ∀ name, type.innermost = .complex name → model.HasComplex name := by
  induction h with
  | property registered own => exact hproperties _ registered _ own
  | element _ ih => exact ih
  | field h registered has _ => exact hfields _ _ h registered _ _ has

end Registry

open Registry (Holds)

variable {model : Registry}

/-! ### Where paths lead -/

/-- What stands at the place is of a type of the model, or of one that the model holds. -/
def Place.IsHeld (model : Registry) : Place → Prop
  | .set t => t ∈ model.types
  | .entity t => t ∈ model.types
  | .value type => model.Holds type
  | .root | .anything => True

private theorem Place.isHeld_ofValue {type : ValueType} (h : model.Holds type) :
    (Place.ofValue type).IsHeld model := by
  unfold Place.ofValue
  split
  · trivial
  · exact h

/-- An element leads from what is held to what is held. -/
theorem Leads.isHeld {parent : Nat} {place next : Place} {e : PathElement}
    (h : Leads model parent place e next) (hplace : place.IsHeld model) : next.IsHeld model := by
  cases h with
  | root _ set => exact (Registry.plural_of_entitySet? set).1
  | key => exact hplace
  | property _ own =>
    exact Place.isHeld_ofValue (.property hplace (EntityType.mem_of_property? own).1)
  | many _ _ leads => exact Registry.mem_of_target? leads
  | one _ _ leads => exact Registry.mem_of_target? leads
  | item => exact Place.isHeld_ofValue (.element hplace)
  | field _ complex own => exact Place.isHeld_ofValue (.field hplace complex own)
  | openField | anyIndex | anyName => trivial

private theorem Run.isHeld {place last : Place} {position : Nat} {es : List PathElement}
    (h : Run model place position es last) (hplace : place.IsHeld model) : last.IsHeld model := by
  induction h with
  | nil => exact hplace
  | cons head _ ih => exact ih (head.isHeld hplace)

/-- What stands at the target is of a type of the model, or of one that the model holds. -/
def Target.IsHeld (model : Registry) : Target → Prop
  | .entity t => t ∈ model.types
  | .value type => model.Holds type
  | .anything => True

private theorem Target.isHeld_ofValue {type : ValueType} (h : model.Holds type) :
    (Target.ofValue type).IsHeld model := by
  unfold Target.ofValue
  split
  · trivial
  · exact h

/-- A step leads from what is held to what is held. -/
theorem Target.StepsTo.isHeld (hmodel : model.Coherent) {X Y : Target} {step : PathStep}
    (h : StepsTo model X step Y) (hX : X.IsHeld model) : Y.IsHeld model := by
  cases h with
  | key own => exact isHeld_ofValue (.property hX own)
  | navigation _ registered => exact registered
  | property own => exact isHeld_ofValue (.property hX own)
  | element => exact isHeld_ofValue (.element hX)
  | field declared has =>
    exact isHeld_ofValue (.field hX ((hmodel.complexType? _ _).mpr ⟨declared, rfl⟩) has)
  | link registered => exact registered
  | openField | part => trivial

private theorem Target.PathTo.isHeld (hmodel : model.Coherent) {X Y : Target}
    {steps : List PathStep}
    (h : PathTo model X steps Y) (hX : X.IsHeld model) : Y.IsHeld model := by
  induction h with
  | nil => exact hX
  | cons first _ ih => exact ih (first.isHeld hmodel hX)

/-! ### Models that are finished -/

/-- A model is asked for the innermost types of its properties when it is finished. -/
theorem Builder.Grown.hasComplex {b : Builder} (hb : b.Grown) (h : b.finalize = .ok model) :
    ∀ t ∈ model.types, ∀ p, .entity p ∈ t.properties →
      ∀ name, p.valueType.innermost = .complex name → model.HasComplex name := by
  have hmodel := hb.coherent h
  have htypes := hb.distinct.types_of_finalize h
  obtain ⟨hconsistent, rfl⟩ := hb.distinct.finalize_eq_ok_iff.mp h
  intro t ht p hp name hname
  rw [htypes] at ht
  obtain ⟨d, hd, rfl⟩ := List.mem_map.mp ht
  have hdeclared : (∃ d ∈ b.types, p ∈ d.properties) ∨ ∃ owner, (owner, p) ∈ b.properties := by
    rcases entity_mem_typeOf.mp hp with rfl | hp | hp
    · cases hname
    · exact .inl ⟨d, hd, hp⟩
    · exact .inr ⟨d.name, hp⟩
  obtain ⟨c, hc, hcname⟩ := hconsistent.complexTypes p hdeclared name hname
  exact ⟨c, (hmodel.complexType? _ _).mpr ⟨hc, hcname⟩⟩

/-- In a finished model no complex type is missing, wherever values hold it and paths lead to it,
exactly if none is missing among the fields of the complex types that values hold. -/
theorem nothing_dangles_iff_fields_registered (b : Builder) (hb : b.Grown) (model : Registry)
    (h : b.finalize = .ok model) : model.NothingDangles ↔ model.FieldsRegistered := by
  have hmodel := hb.coherent h
  constructor
  · intro hheld owner c howner hc field type htype name hname
    have hinner := (Holds.field howner hc htype).innermost
    rw [hname] at hinner
    exact hheld.held name hinner
  · intro hfields
    have hregistered (name : String) (hname : model.Holds (.complex name)) :
        model.HasComplex name :=
      hname.registered hfields (hb.hasComplex h) name rfl
    refine ⟨hregistered, ?_, ?_⟩
    · intro raw segments rest r suffix name hraw hsteps hplace
      have hwritable := (Segment.writable_of_ofPath? hraw).2
      obtain ⟨⟨es, -, hrun⟩, -, -⟩ := Resolution.extends_of_steps
        (fun s hs ↦ hwritable s (List.mem_append_left rest hs)) hsteps
      have hheld := hrun.isHeld trivial
      rw [hplace] at hheld
      exact hregistered name hheld
    · intro t ht p name hresolve
      have hpath := (Target.resolve_eq_ok_iff hmodel ht).mp hresolve
      exact hregistered name (hpath.isHeld hmodel ht)

namespace Museum

/-- Makers that belong to a workshop. -/
def maker : ComplexType := ⟨"Maker", [("workshop", .complex "Workshop")], false⟩

/-- Workshops with all their makers. -/
def workshop : ComplexType := ⟨"Workshop", [("members", .list (.complex "Maker"))], true⟩

/-- Exhibits with any number of makers, and more declarations behind them. -/
def makerDeclarations (more : List Declaration) : List Declaration :=
  [.complexType maker,
    .entityType ⟨"Exhibit", "Exhibits", "code", .string,
      [⟨"makers", .list (.complex "Maker"), false⟩]⟩] ++ more

/-- The builder that makes these declarations. -/
def makers (more : List Declaration) : Builder :=
  (makerDeclarations more).foldl (fun b d ↦ (b.declare d).1) Builder.empty

private theorem grown_makers (more : List Declaration) : (makers more).Grown :=
  Builder.Grown.empty.foldl (makerDeclarations more)

/-- What the exhibits come to with these complex types. -/
def makerModel (complexTypes : List ComplexType) : Registry :=
  .ofTable
    (EntityTable.empty.insert
      ((EntityType.bare 0 "Exhibit" "Exhibits" "code" .string).pushAll
        [.entity ⟨"code", .id, false⟩, .entity ⟨"makers", .list (.complex "Maker"), false⟩]))
    complexTypes []

end Museum

/-- The theorem at makers and workshops that refer to one another, the workshops declared last. -/
theorem museum_workshops_do_not_dangle :
    (Museum.makers [.complexType Museum.workshop]).finalize =
      .ok (Museum.makerModel [Museum.maker, Museum.workshop]) ∧
    (Museum.makerModel [Museum.maker, Museum.workshop]).NothingDangles := by
  have hmade : (Museum.makers [.complexType Museum.workshop]).finalize =
      .ok (Museum.makerModel [Museum.maker, Museum.workshop]) := rfl
  have hiff := nothing_dangles_iff_fields_registered _ (Museum.grown_makers _) _ hmade
  refine ⟨hmade, hiff.mpr ?_⟩
  intro owner c _ hc field type htype name hname
  have hfields : [Museum.maker, Museum.workshop].all (fun c ↦ c.fields.all fun f ↦
      f.2.innermost = .complex "Maker" || f.2.innermost = .complex "Workshop") = true := by decide
  obtain ⟨f, hf, rfl⟩ := Option.map_eq_some_iff.mp htype
  have hinner := List.all_eq_true.mp
    (List.all_eq_true.mp hfields c (List.mem_of_find?_eq_some hc)) f (List.mem_of_find?_eq_some hf)
  rw [hname] at hinner
  have hcase : name = "Maker" ∨ name = "Workshop" := by simpa using hinner
  rcases hcase with rfl | rfl
  · exact ⟨Museum.maker, rfl⟩
  · exact ⟨Museum.workshop, rfl⟩

/-- Without the workshop the model can be finished too. Then a path that goes on behind the workshop
of a maker meets a complex type that is not registered. -/
theorem museum_workshop_dangles :
    (Museum.makers []).Grown ∧
    (Museum.makers []).finalize = .ok (Museum.makerModel [Museum.maker]) ∧
    ¬ (∀ name, (Museum.makerModel [Museum.maker]).Holds (.complex name) →
      (Museum.makerModel [Museum.maker]).HasComplex name) ∧
    ResourcePath.parse (Museum.makerModel [Museum.maker]) "http://museum" .v1_1
      "/Exhibits('o''b')/makers[0]/workshop/name" =
        .error (.unknownProperty "Workshop" "name") := by
  refine ⟨Museum.grown_makers [], rfl, ?_, by decide +kernel⟩
  intro hall
  have hmakers : (Museum.makerModel [Museum.maker]).Holds (.list (.complex "Maker")) :=
    .property List.mem_cons_self (p := ⟨"makers", .list (.complex "Maker"), false⟩)
      (List.mem_cons_of_mem _ List.mem_cons_self)
  have hworkshop : Museum.maker.field? "workshop" = some (.complex "Workshop") := rfl
  obtain ⟨c, hc⟩ := hall "Workshop" (.field hmakers.element rfl hworkshop)
  cases hc

end SensorQuery
