import SensorQuery.Proofs.Model.Within
import SensorQuery.Proofs.Path.RoundTrip

/-!
# Paths in extended models

What a model resolves is resolved in the same way by a model that it is within. The places that are
reached differ only in the properties that types have gained (`Resolution.Within`), and each step
keeps that.
-/

namespace SensorQuery

open Fallible

/-- The other place is the same, but its type may have more properties in the larger model. -/
inductive Place.Within (more : Registry) : Place → Place → Prop where
  | root : Within more .root .root
  | set {t t' : EntityType} (mem : t' ∈ more.types) (within : t.Within t') :
    Within more (.set t) (.set t')
  | entity {t t' : EntityType} (mem : t' ∈ more.types) (within : t.Within t') :
    Within more (.entity t) (.entity t')
  | value (type : ValueType) : Within more (.value type) (.value type)
  | anything : Within more .anything .anything

private theorem Place.Within.ofValue (more : Registry) (type : ValueType) :
    Within more (.ofValue type) (.ofValue type) := by
  unfold Place.ofValue
  split
  · exact .anything
  · exact .value type

namespace Resolution

/-- The other resolution has the same elements, and its place is the same in the larger model. -/
structure Within (more : Registry) (r r' : Resolution) : Prop where
  elements : r'.elements = r.elements
  place : Place.Within more r.place r'.place

/-- What succeeds succeeds in the larger model, with the same elements. -/
def Follows (more : Registry) (x x' : Except PathError Resolution) : Prop :=
  ∀ next, x = .ok next → ∃ next', x' = .ok next' ∧ Within more next next'

variable {model more : Registry} {r r' : Resolution} {t t' : EntityType} {s : Segment}

private theorem Within.parent (h : Within more r r') : r'.parent = r.parent := by
  rw [Resolution.parent, Resolution.parent, h.elements]

private theorem Within.push (h : Within more r r') {place place' : Place}
    (hplace : Place.Within more place place') (e : PathElement) :
    Within more (r.push e place) (r'.push e place') where
  elements := by simp only [Resolution.push, h.elements]
  place := hplace

private theorem follows_ok (h : Within more r r') : Follows more (.ok r) (.ok r') := by
  rintro next ⟨⟩
  exact ⟨r', rfl, h⟩

private theorem follows_error {e : PathError} {x' : Except PathError Resolution} :
    Follows more (.error e) x' := nofun

private theorem follows_check {check : Except PathError Unit} {x x' : Except PathError Resolution}
    (h : Follows more x x') : Follows more (check >>= fun _ ↦ x) (check >>= fun _ ↦ x') := by
  cases check with
  | error e => exact follows_error
  | ok => exact h

private theorem follows_enterSet (h : Within more r r') (mem : t' ∈ more.types)
    (ht : t.Within t') (key : Option String) :
    Follows more (r.enterSet t key) (r'.enterSet t' key) := by
  cases key with
  | none => exact follows_ok { h with place := .set mem ht }
  | some key =>
    unfold enterSet
    simp only [ht.keyKind, ht.name, h.parent]
    split
    · exact follows_ok (h.push (.entity mem ht) _)
    · exact follows_error

private theorem follows_rootStep (hwithin : model.Within more) (hmore : more.Coherent)
    (h : Within more r r') : Follows more (r.rootStep model s) (r'.rootStep more s) := by
  unfold rootStep
  split
  · exact follows_error
  · next t ht =>
    obtain ⟨t', ht', mem, hsame⟩ := hwithin.entitySet? hmore ht
    simp only [ht', hsame.name, hsame.plural]
    exact follows_enterSet (h.push (.set mem hsame) _) mem hsame s.key

private theorem follows_entityStep (hwithin : model.Within more) (hmore : more.Coherent)
    (h : Within more r r') (mem : t' ∈ more.types) (ht : t.Within t') :
    Follows more (r.entityStep model t s) (r'.entityStep more t' s) := by
  unfold entityStep
  split
  · next p hp =>
    simp only [Registry.Within.property? hmore mem ht hp, h.parent]
    exact follows_check (follows_ok (h.push (.ofValue more p.valueType) _))
  · next n hn =>
    simp only [Registry.Within.property? hmore mem ht hn]
    split
    · next target htarget =>
      obtain ⟨target', htarget', mem', hsame⟩ := hwithin.target? htarget
      simp only [htarget', hsame.name, hsame.plural, h.parent]
      split
      · exact follows_enterSet (h.push (.set mem' hsame) _) mem' hsame s.key
      · exact follows_check (follows_ok (h.push (.entity mem' hsame) _))
    · exact follows_error
  · exact follows_error

private theorem follows_pushIndex (h : Within more r r') (name : String) (i : UInt64) :
    Follows more (r.pushIndex name i) (r'.pushIndex name i) := by
  obtain ⟨elements, place⟩ := r
  obtain ⟨elements', place'⟩ := r'
  cases h.place with
  | value type =>
    cases type with
    | list element =>
      simp only [pushIndex, h.parent]
      exact follows_ok (h.push (.ofValue more element) _)
    | _ => exact follows_error
  | anything =>
    simp only [pushIndex, h.parent]
    exact follows_ok (h.push .anything _)
  | _ => exact follows_error

private theorem follows_valueStep (hwithin : model.Within more) (hmore : more.Coherent)
    (h : Within more r r') (type : ValueType) (name : String) :
    Follows more (r.valueStep model type name) (r'.valueStep more type name) := by
  unfold valueStep
  split
  · split
    · exact follows_pushIndex h name _
    · exact follows_error
  · next owner =>
    split
    · exact follows_error
    · next c hc =>
      simp only [hwithin.complexType? hmore hc, h.parent]
      split
      · exact follows_ok (h.push (.ofValue more _) _)
      · split
        · exact follows_ok (h.push .anything _)
        · exact follows_error
  · exact follows_error

private theorem Within.anythingStep (h : Within more r r') (name : String) :
    Within more (r.anythingStep name) (r'.anythingStep name) := by
  unfold Resolution.anythingStep
  rw [h.parent]
  split
  · exact h.push .anything _
  · exact h.push .anything _

private theorem follows_nameStep (hwithin : model.Within more) (hmore : more.Coherent)
    (h : Within more r r') (s : Segment) :
    Follows more (r.nameStep model s) (r'.nameStep more s) := by
  obtain ⟨elements, place⟩ := r
  obtain ⟨elements', place'⟩ := r'
  cases h.place with
  | root => exact follows_rootStep hwithin hmore h
  | set => exact follows_error
  | entity mem ht => exact follows_entityStep hwithin hmore h mem ht
  | value type => exact follows_check (follows_valueStep hwithin hmore h type s.name)
  | anything => exact follows_check (follows_ok (h.anythingStep s.name))

private theorem follows_pushIndices (h : Within more r r') (name : String) (is : List UInt64) :
    Follows more (is.foldlM (pushIndex name) r) (is.foldlM (pushIndex name) r') := by
  induction is generalizing r r' with
  | nil => exact follows_ok h
  | cons i is ih =>
    intro next hnext
    rw [List.foldlM_cons] at hnext ⊢
    obtain ⟨mid, hmid, hnext⟩ := bind_eq_ok.mp hnext
    obtain ⟨mid', hmid', hsame⟩ := follows_pushIndex h name i mid hmid
    rw [hmid', ok_bind]
    exact ih hsame next hnext

/-- A segment that is resolved in a model is resolved to the same elements in a larger one. -/
theorem follows_step (hwithin : model.Within more) (hmore : more.Coherent)
    (h : Within more r r') (s : Segment) : Follows more (r.step model s) (r'.step more s) := by
  intro next hnext
  obtain ⟨named, hnamed, hindices⟩ := bind_eq_ok.mp hnext
  obtain ⟨named', hnamed', hsame⟩ := follows_nameStep hwithin hmore h s named hnamed
  rw [step, hnamed', ok_bind]
  exact follows_pushIndices hsame s.name s.indices next hindices

/-- Segments that are resolved in a model are resolved to the same elements in a larger one, with
the same suffix. -/
theorem exists_steps_of_within (hwithin : model.Within more) (hmore : more.Coherent)
    (h : Within more r r') {segments : List Segment} {next : Resolution} {suffix : Option Suffix}
    (hsteps : r.steps model segments = .ok (next, suffix)) :
    ∃ next', r'.steps more segments = .ok (next', suffix) ∧ Within more next next' := by
  induction segments generalizing r r' with
  | nil =>
    cases hsteps
    exact ⟨r', rfl, h⟩
  | cons s segments ih =>
    rw [steps] at hsteps ⊢
    split at hsteps
    · next suffix' hsuffix =>
      obtain ⟨_, hcheck, hsteps⟩ := bind_eq_ok.mp hsteps
      cases hsteps
      rw [checkSuffix_eq_ok, ← h.elements, ← checkSuffix_eq_ok] at hcheck
      refine ⟨r', ?_, h⟩
      simp only [hcheck]
      rfl
    · next hsuffix =>
      obtain ⟨mid, hmid, hsteps⟩ := bind_eq_ok.mp hsteps
      obtain ⟨mid', hmid', hsame⟩ := follows_step hwithin hmore h s mid hmid
      simp only [hmid', ok_bind]
      exact ih hsame hsteps

end Resolution

namespace ResourcePath

variable {model more : Registry} {root : String} {version : Version} {t : String}
  {p : ResourcePath}

/-- A path that is read in a model is read in every model that it is within. -/
theorem parse_of_within (hwithin : model.Within more) (hmore : more.Coherent)
    (h : parse model root version t = .ok p) : parse more root version t = .ok p := by
  obtain ⟨segments, r, suffix, hsegments, hsteps, rfl⟩ := exists_steps_of_parse h
  obtain ⟨r', hsteps', hsame⟩ :=
    Resolution.exists_steps_of_within hwithin hmore ⟨rfl, .root⟩ hsteps
  rw [parse_of_steps hsegments hsteps' root version, hsame.elements]

end ResourcePath

/-! ### Types of elements -/

section

variable {model : Registry} {place last : Place} {position : Nat} {es : List PathElement}

private theorem Leads.mem_types {parent : Nat} {e : PathElement} {next : Place}
    (h : Leads model parent place e next) (hplace : ∀ t, place = .set t → t ∈ model.types) :
    (∀ t, next = .set t → t ∈ model.types) ∧
      ∀ name, e.entityType? = some name → ∃ t ∈ model.types, t.name = name := by
  cases h with
  | root _ set =>
    have hmem := (Registry.plural_of_entitySet? set).1
    refine ⟨?_, ?_⟩
    · rintro _ ⟨⟩
      exact hmem
    · rintro _ ⟨⟩
      exact ⟨_, hmem, rfl⟩
  | key =>
    refine ⟨nofun, ?_⟩
    rintro _ ⟨⟩
    exact ⟨_, hplace _ rfl, rfl⟩
  | many _ _ leads =>
    have hmem := Registry.mem_of_target? leads
    refine ⟨?_, ?_⟩
    · rintro _ ⟨⟩
      exact hmem
    · rintro _ ⟨⟩
      exact ⟨_, hmem, rfl⟩
  | one _ _ leads =>
    refine ⟨nofun, ?_⟩
    rintro _ ⟨⟩
    exact ⟨_, Registry.mem_of_target? leads, rfl⟩
  | property => exact ⟨fun t ht ↦ absurd ht (Resolution.ofValue_ne_set _ t), nofun⟩
  | item => exact ⟨fun t ht ↦ absurd ht (Resolution.ofValue_ne_set _ t), nofun⟩
  | field => exact ⟨fun t ht ↦ absurd ht (Resolution.ofValue_ne_set _ t), nofun⟩
  | openField => exact ⟨nofun, nofun⟩
  | anyIndex => exact ⟨nofun, nofun⟩
  | anyName => exact ⟨nofun, nofun⟩

private theorem Run.mem_types (h : Run model place position es last)
    (hplace : ∀ t, place = .set t → t ∈ model.types) :
    ∀ e ∈ es, ∀ name, e.entityType? = some name → ∃ t ∈ model.types, t.name = name := by
  induction h with
  | nil => nofun
  | cons head _ ih =>
    obtain ⟨hmid, htype⟩ := head.mem_types hplace
    exact List.forall_mem_cons.mpr ⟨htype, ih hmid⟩

end

/-- The entities and sets of a path are of types of the model. -/
theorem ResourcePath.Formed.exists_entityType? {model : Registry} {p : ResourcePath}
    (hp : p.Formed model) (hmodel : model.Coherent) {e : PathElement} (he : e ∈ p.elements)
    {name : String} (hname : e.entityType? = some name) : ∃ t, model.entityType? name = some t := by
  obtain ⟨last, hrun⟩ := hp.exists_run
  obtain ⟨t, ht, hsame⟩ := hrun.mem_types nofun e he name hname
  exact ⟨t, (hmodel.entityType? name t).mpr ⟨ht, hsame⟩⟩

/-- When more is declared, whichever of the declarations fail, every path that could be read is read
as the same path, with the same compressed path, and the types of its elements keep their ids. -/
theorem extended_model_reads_paths (b : Builder) (hb : b.Grown) (ds : List Declaration)
    (model more : Registry) (hmodel : b.finalize = .ok model)
    (hmore : (b.declareEach ds).finalize = .ok more) (root : String) (version : Version)
    (t : String) (p : ResourcePath) (h : ResourcePath.parse model root version t = .ok p) :
    ResourcePath.parse more root version t = .ok p ∧
      (ResourcePath.parse more root version t).map ResourcePath.compress = .ok p.compress ∧
      ∀ e ∈ p.elements, ∀ name, e.entityType? = some name →
        ∃ t t', model.entityType? name = some t ∧ more.entityType? name = some t' ∧
          t'.id = t.id := by
  have hwithin := hb.within ds hmodel hmore
  have hcoherent := (hb.declareEach ds).coherent hmore
  have hread := ResourcePath.parse_of_within hwithin hcoherent h
  refine ⟨hread, by rw [hread]; rfl, fun e he name hname ↦ ?_⟩
  obtain ⟨t, ht⟩ :=
    (ResourcePath.formed_of_parse h).exists_entityType? (hb.coherent hmodel) he hname
  obtain ⟨t', ht', -, hsame⟩ := hwithin.entityType? hcoherent ht
  exact ⟨t, t', ht, ht', hsame.id⟩

namespace Museum

/-- What visitors add to the museum: themselves, and notes on exhibits that they leave. -/
def visits : List Declaration :=
  [.entityType ⟨"Visitor", "Visitors", "id", .long, []⟩,
    .property "Exhibit" ⟨"rating", .double, false⟩,
    .link ⟨⟨"Visitor", "notes", true, false⟩, ⟨"Exhibit", "visitor", false, false⟩⟩]

/-- The museum with its visitors. -/
def visited : Registry :=
  .ofTable
    (((EntityTable.empty.insert room).insert
        ((EntityType.bare 1 "Exhibit" "Exhibits" "code" .string).pushAll
          [.entity ⟨"code", .id, false⟩, .entity ⟨"maker", .complex "Maker", false⟩,
            .entity ⟨"sizes", .list .double, false⟩, .entity ⟨"notes", .any, false⟩,
            .entity ⟨"rating", .double, false⟩, .navigation ⟨"room", 0, false, "exhibits", true⟩,
            .navigation ⟨"visitor", 2, false, "notes", false⟩])).insert
      ((EntityType.bare 2 "Visitor" "Visitors" "id" .long).pushAll
        [.entity ⟨"id", .id, false⟩, .navigation ⟨"notes", 1, true, "visitor", false⟩]))
    model.complexTypes []

end Museum

/-- What visitors add to the museum makes a model. -/
theorem Museum.visited_of_visits :
    ((Builder.empty.declareEach declarations).declareEach visits).finalize = .ok visited := rfl

/-- The theorem at a path below a property that has the name of a new link. -/
theorem museum_path_read_with_visitors :
    ResourcePath.parse Museum.visited Museum.notePath.serviceRoot Museum.notePath.version
      Museum.notePath.raw = .ok Museum.notePath :=
  (extended_model_reads_paths (Builder.empty.declareEach Museum.declarations)
    (Builder.Grown.empty.declareEach _) Museum.visits Museum.model Museum.visited rfl
    Museum.visited_of_visits _ _ _ _ Museum.parse_notePath).1

end SensorQuery
