import Mathlib.Data.List.Nodup
import SensorQuery.Model.Builder
import SensorQuery.Proofs.Fallible
import SensorQuery.Proofs.Model.Names

/-!
# Finalized models

A model is finalized if it was made from declarations, of which some may have failed. Whatever was
declared, no two types have one name, and no two entity sets: what every single operation keeps is
kept by all declarations (`Builder.Kept`).
-/

namespace SensorQuery

open Fallible

namespace Builder

/-- The builder comes from declarations one after the other. A declaration that failed leaves what
it declared before. -/
inductive Reachable : Builder → Prop where
  | empty : Reachable empty
  | declare {b : Builder} (h : Reachable b) (d : Declaration) : Reachable (b.declare d).1

/-- No two declared types have one name, and no two entity sets. -/
structure Distinct (b : Builder) : Prop where
  names : (b.types.map (·.name)).Nodup
  plurals : (b.types.map (·.plural)).Nodup

variable {b more : Builder}

/-- A list without repeated labels stays one with an item behind it whose label is new. -/
theorem nodup_concat {α β : Type} [DecidableEq β] {f : α → β} {xs : List α} {x : α}
    (h : (xs.map f).Nodup) (hnew : xs.any (fun y ↦ f y = f x) = false) :
    ((xs ++ [x]).map f).Nodup := by
  have hfresh : f x ∉ xs.map f := by simpa using hnew
  rw [List.map_append, List.map_singleton, ← List.concat_eq_append]
  exact List.Nodup.concat hfresh h

/-- An entity type is added if its name and the name of its set are new. -/
theorem addEntityType_eq_ok {d : EntityDeclaration} (h : b.addEntityType d = .ok more) :
    b.types.any (·.name = d.name) = false ∧ b.types.any (·.plural = d.plural) = false ∧
      more = { b with types := b.types ++ [d] } := by
  unfold addEntityType at h
  split at h
  · cases h
  · next hname =>
    split at h
    · cases h
    · next hplural =>
      cases h
      exact ⟨by simpa using hname, by simpa using hplural, rfl⟩

/-- A complex type is added if its name is new. -/
theorem addComplexType_eq_ok {c : ComplexType} (h : b.addComplexType c = .ok more) :
    b.complexTypes.any (·.name = c.name) = false ∧
      more = { b with complexTypes := b.complexTypes ++ [c] } := by
  unfold addComplexType at h
  split at h
  · cases h
  · next hname =>
    cases h
    exact ⟨by simpa using hname, rfl⟩

private theorem Distinct.addEntityType (h : b.Distinct) {d : EntityDeclaration}
    (hd : b.addEntityType d = .ok more) : more.Distinct := by
  obtain ⟨hname, hplural, rfl⟩ := addEntityType_eq_ok hd
  exact ⟨nodup_concat h.names hname, nodup_concat h.plurals hplural⟩

private theorem Distinct.addComplexType (h : b.Distinct) {c : ComplexType}
    (hc : b.addComplexType c = .ok more) : more.Distinct := by
  obtain ⟨-, rfl⟩ := addComplexType_eq_ok hc
  exact ⟨h.names, h.plurals⟩

private theorem attempt_keeps {P : Builder → Prop} (h : P b) {x : Except ModelError Builder}
    (hx : ∀ more, x = .ok more → P more) : P (b.attempt x).1 := by
  cases x with
  | ok more => exact hx more rfl
  | error e => exact h

/-- The property is kept by each single operation. -/
structure Kept (P : Builder → Prop) : Prop where
  entityType : ∀ {b more : Builder} {d : EntityDeclaration}, P b →
    b.addEntityType d = .ok more → P more
  property : ∀ {b : Builder} (p : String × EntityProperty), P b →
    P { b with properties := b.properties ++ [p] }
  complexType : ∀ {b more : Builder} {c : ComplexType}, P b →
    b.addComplexType c = .ok more → P more
  link : ∀ {b : Builder} (l : Link), P b → P { b with links := b.links ++ [l] }
  extension : ∀ {b : Builder} (name : String), P b →
    P { b with extensions := b.extensions ++ [name] }

-- Whatever is declared, and wherever it fails, what each operation keeps is kept.
private theorem Kept.declare_both {P : Builder → Prop} (kept : Kept P) :
    (∀ (b : Builder) (d : Declaration), P b → P (b.declare d).1) ∧
      ∀ (b : Builder) (ds : List Declaration), P b → P (b.declareAll ds).1 := by
  apply declare.mutual_induct
  case case1 =>
    intro b d h
    rw [declare]
    exact attempt_keeps h fun more hd ↦ kept.entityType h hd
  case case3 =>
    intro b c h
    rw [declare]
    exact attempt_keeps h fun more hc ↦ kept.complexType h hc
  case case2 =>
    intro b owner p h
    rw [declare]
    exact kept.property (owner, p) h
  case case4 =>
    intro b l h
    rw [declare]
    exact kept.link l h
  case case5 =>
    intro b name steps hold h
    rw [declare, if_pos hold]
    exact h
  case case6 =>
    intro b name steps hnew more hsteps ih h
    have hmore := ih h
    rw [hsteps] at hmore
    rw [declare, if_neg hnew, hsteps]
    exact kept.extension name hmore
  case case7 =>
    intro b name steps hnew more e hsteps ih h
    have hmore := ih h
    rw [hsteps] at hmore
    rw [declare, if_neg hnew, hsteps]
    exact hmore
  case case8 =>
    intro b h
    rw [declareAll]
    exact h
  case case9 =>
    intro b step steps more hstep ihstep ihsteps h
    have hmore := ihstep h
    rw [hstep] at hmore
    rw [declareAll, hstep]
    exact ihsteps hmore
  case case10 =>
    intro b step steps more e hstep ihstep h
    have hmore := ihstep h
    rw [hstep] at hmore
    rw [declareAll, hstep]
    exact hmore

/-- A property that each operation keeps is kept by every declaration. -/
theorem Kept.declare {P : Builder → Prop} (kept : Kept P) (d : Declaration) (h : P b) :
    P (b.declare d).1 := kept.declare_both.1 b d h

/-- Each operation keeps the declarations distinct. -/
theorem kept_distinct : Kept Distinct where
  entityType h hd := h.addEntityType hd
  property _ h := ⟨h.names, h.plurals⟩
  complexType h hc := h.addComplexType hc
  link _ h := ⟨h.names, h.plurals⟩
  extension _ h := ⟨h.names, h.plurals⟩

/-- Nothing is declared twice where nothing is declared. -/
theorem distinct_empty : empty.Distinct := ⟨List.nodup_nil, List.nodup_nil⟩

/-- The declarations of a builder that can be reached are distinct. -/
theorem Reachable.distinct (h : b.Reachable) : b.Distinct := by
  induction h with
  | empty => exact distinct_empty
  | declare _ d ih => exact kept_distinct.declare d ih

end Builder

/-- The model comes from declarations that fit together. -/
def Registry.Finalized (model : Registry) : Prop :=
  ∃ b : Builder, b.Reachable ∧ b.finalize = .ok model

/-! ### A model of a museum -/

namespace Museum

/-- Rooms with exhibits, whose makers may be described freely. -/
def declarations : List Declaration :=
  [.complexType ⟨"Maker", [("name", .string)], true⟩,
    .entityType ⟨"Room", "Rooms", "id", .long, [⟨"name", .string, true⟩]⟩,
    .entityType ⟨"Exhibit", "Exhibits", "code", .string,
      [⟨"maker", .complex "Maker", false⟩, ⟨"sizes", .list .double, false⟩,
        ⟨"notes", .any, false⟩]⟩,
    .link ⟨⟨"Room", "exhibits", true, false⟩, ⟨"Exhibit", "room", false, true⟩⟩]

/-- The rooms of the museum. -/
def room : EntityType :=
  (EntityType.bare 0 "Room" "Rooms" "id" .long).pushAll
    [.entity ⟨"id", .id, false⟩, .entity ⟨"name", .string, true⟩,
      .navigation ⟨"exhibits", 1, true, "room", false⟩]

/-- The exhibits of the museum. -/
def exhibit : EntityType :=
  (EntityType.bare 1 "Exhibit" "Exhibits" "code" .string).pushAll
    [.entity ⟨"code", .id, false⟩, .entity ⟨"maker", .complex "Maker", false⟩,
      .entity ⟨"sizes", .list .double, false⟩, .entity ⟨"notes", .any, false⟩,
      .navigation ⟨"room", 0, false, "exhibits", true⟩]

/-- What the declarations come to. -/
def model : Registry :=
  .ofTable ((EntityTable.empty.insert room).insert exhibit)
    [⟨"Maker", [("name", .string)], true⟩] []

/-- The museum is what its declarations come to. -/
theorem finalized : model.Finalized :=
  ⟨_, (((Builder.Reachable.empty.declare declarations[0]).declare declarations[1]).declare
    declarations[2]).declare declarations[3], rfl⟩

/-- The museum has rooms. -/
theorem room_mem : room ∈ model.types := List.mem_cons_self

/-- The museum has exhibits. -/
theorem exhibit_mem : exhibit ∈ model.types := List.mem_cons_of_mem _ List.mem_cons_self

end Museum

end SensorQuery
