import SensorQuery.Proofs.Model.Within
import SensorQuery.Proofs.Path.RoundTrip

/-!
# Paths by key

Every key of a type addresses an entity of the type's set, whatever stands in the key: quotes are
doubled when it is written, and between quotes nothing else ends it.
-/

namespace SensorQuery

open Segment (IsName)

/-- The path of a key in a set, as text. -/
def Key.pathText (plural : String) (k : Key) : String :=
  "/" ++ plural ++ "(" ++ String.ofList k.text ++ ")"

namespace ResourcePath

variable {model : Registry} {t : EntityType} {k : Key}

/-- The path of a key in the set of the type. -/
def ofKey (t : EntityType) (k : Key) (serviceRoot : String) (version : Version) :
    ResourcePath where
  elements := [.entitySet t.name t.plural none none, .entity t.name (some k) none (some 0)]
  main := 1
  mainType := t.name
  suffix := none
  serviceRoot
  version
  raw := k.pathText t.plural

private theorem formed_ofKey (hmodel : model.Coherent) (ht : t ∈ model.types)
    (hname : IsName t.plural)
    (hk : k.kind = t.keyKind) (root : String) (version : Version) :
    (ofKey t k root version).Formed model where
  ne_nil := List.cons_ne_nil _ _
  exists_run := by
    have hset : model.entitySet? t.plural = some t := (hmodel.entitySet? _ _).mpr ⟨ht, rfl⟩
    exact ⟨_, .cons (.root hname hset) (.cons (.key hk) (.nil _ _))⟩
  fits := trivial
  eq_ofElements := rfl

private theorem text_ofKey (t : EntityType) (k : Key) (root : String) (version : Version) :
    String.ofList (ofKey t k root version).text = k.pathText t.plural := by
  apply String.toList_inj.mp
  simp [ofKey, text, Key.pathText, PathElement.text, PathElement.keyText]

/-- The path of a key is read from its text. -/
theorem parse_pathText (hmodel : model.Coherent) (ht : t ∈ model.types) (hname : IsName t.plural)
    (hk : k.kind = t.keyKind) (root : String) (version : Version) :
    parse model root version (k.pathText t.plural) = .ok (ofKey t k root version) := by
  have hread := (formed_ofKey hmodel ht hname hk root version).parse_text root version
  rw [text_ofKey] at hread
  exact hread

end ResourcePath

/-- Every key of a type's kind addresses the entity with the key in the set of the type, if the name
of the set can be written in a path. So distinct keys have distinct paths. -/
theorem every_key_is_addressable (b : Builder) (hb : b.Grown) (model : Registry)
    (h : b.finalize = .ok model) (t : EntityType) (ht : t ∈ model.types)
    (hname : Segment.IsName t.plural) (root : String) (version : Version) (k : Key)
    (hk : k.kind = t.keyKind) : ∃ p,
      ResourcePath.parse model root version
          ("/" ++ t.plural ++ "(" ++ String.ofList k.text ++ ")") = .ok p ∧
        p.elements =
          [.entitySet t.name t.plural none none, .entity t.name (some k) none (some 0)] ∧
        p.main = 1 ∧ p.mainType = t.name ∧ p.suffix = none ∧
        ∀ k' : Key, k'.kind = t.keyKind → k' ≠ k → ∃ p',
          ResourcePath.parse model root version
              ("/" ++ t.plural ++ "(" ++ String.ofList k'.text ++ ")") = .ok p' ∧
            p'.same p = false := by
  have hmodel := hb.coherent h
  refine ⟨.ofKey t k root version, ResourcePath.parse_pathText hmodel ht hname hk root version,
    rfl, rfl, rfl, rfl, fun k' hk' hne ↦ ⟨.ofKey t k' root version,
      ResourcePath.parse_pathText hmodel ht hname hk' root version, ?_⟩⟩
  simp [ResourcePath.same, ResourcePath.ofKey, hne]

/-- The theorem at a key of the museum with a quote, brackets and slashes in it. -/
theorem museum_key_is_addressable : ∃ p,
    ResourcePath.parse Museum.model "http://museum" .v1_1
        "/Exhibits(''')/[1](''$ref')" = .ok p ∧
      p.elements = [.entitySet "Exhibit" "Exhibits" none none,
        .entity "Exhibit" (some (.string "')/[1]('$ref")) none (some 0)] := by
  obtain ⟨p, hp, helements, -⟩ := every_key_is_addressable
    (Builder.empty.declareEach Museum.declarations) (Builder.Grown.empty.declareEach _)
    Museum.model rfl Museum.exhibit Museum.exhibit_mem ⟨⟨by decide, by decide⟩, by decide⟩
    "http://museum" .v1_1 (.string "')/[1]('$ref") rfl
  exact ⟨p, hp, helements⟩

end SensorQuery
