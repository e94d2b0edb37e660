import SensorQuery.Proofs.Path.Addressed
import SensorQuery.Proofs.Path.Slashed

/-!
# Notations of indices

An index may be written in brackets or behind a slash, in resource paths and in property paths. A
resource path stays the same when one index changes its notation, and a property path is read as
the steps that it writes, whichever notation each index has (`RawStep.Spells`).
-/

namespace SensorQuery

open Scanner
open Segment (WritesIndices)

namespace RawStep

/-- The digits write the index, perhaps with zeros in front. -/
structure IsDigits (ds : List Char) (i : UInt64) : Prop where
  ne_nil : ds ≠ []
  digits : ∀ c ∈ ds, c.isDigit = true
  number : Numeral.uint64? ds = some i

/-- The text writes the steps behind the first: each name behind a slash, and each index in brackets
or behind a slash. -/
inductive Spells : List RawStep → List Char → Prop where
  | nil : Spells [] []
  | name {w t : List Char} {steps : List RawStep} (word : IsWord w) (more : Spells steps t) :
    Spells (.name (String.ofList w) :: steps) ('/' :: w ++ t)
  | bracket {ds t : List Char} {i : UInt64} {steps : List RawStep} (index : IsDigits ds i)
    (more : Spells steps t) : Spells (.index i :: steps) ('[' :: ds ++ ']' :: t)
  | slash {ds t : List Char} {i : UInt64} {steps : List RawStep} (index : IsDigits ds i)
    (more : Spells steps t) : Spells (.index i :: steps) ('/' :: ds ++ t)

/-- What the step is read as: a name of digits is an index. -/
def read : RawStep → RawStep
  | .name w => ofName w.toList
  | .index i => .index i

variable {ds t t' w : List Char} {i : UInt64} {steps : List RawStep}

private theorem IsDigits.ofName_eq (h : IsDigits ds i) : ofName ds = .index i := by
  rw [ofName, if_pos (List.all_eq_true.mpr h.digits), h.number]

private theorem IsDigits.isWord (h : IsDigits ds i) : IsWord ds :=
  .inr ⟨h.ne_nil, fun c hc ↦ isNameChar_of_isDigit c (h.digits c hc)⟩

/-- The text falls apart into indices in brackets and words with indices in brackets. -/
theorem Spells.exists_written (h : Spells steps t) :
    ∃ u is others, WritesIndices u is ∧ t = u ++ WrittenStep.texts others ∧
      steps.map read = is.map .index ++ others.flatMap WrittenStep.raws := by
  induction h with
  | nil => exact ⟨[], [], [], .nil, rfl, rfl⟩
  | @name w t steps word more ih =>
    obtain ⟨u, is, others, hu, rfl, hsteps⟩ := ih
    refine ⟨[], [], ⟨w, u, is, word, hu⟩ :: others, .nil, ?_, ?_⟩
    · simp [WrittenStep.texts, WrittenStep.text]
    · simp [WrittenStep.raws, read, hsteps]
  | @bracket ds t i steps index more ih =>
    obtain ⟨u, is, others, hu, rfl, hsteps⟩ := ih
    refine ⟨_, i :: is, others, .cons index.ne_nil index.digits index.number hu, ?_, ?_⟩
    · simp
    · simp [read, hsteps]
  | @slash ds t i steps index more ih =>
    obtain ⟨u, is, others, hu, rfl, hsteps⟩ := ih
    refine ⟨[], [], ⟨ds, u, is, index.isWord, hu⟩ :: others, .nil, ?_, ?_⟩
    · simp [WrittenStep.texts, WrittenStep.text]
    · simp [WrittenStep.raws, read, hsteps, index.ofName_eq]

/-- A path is read as the steps that its text writes. -/
theorem scanPath_of_spells {ε : Type} (hw : IsWord w) (hfirst : IsFirst w) (h : Spells steps t) :
    (scanPath : Scanner ε (List RawStep)) (w ++ t) = .found (ofName w :: steps.map read) [] := by
  obtain ⟨u, is, others, hu, rfl, hsteps⟩ := h.exists_written
  let first : WrittenStep := ⟨w, u, is, hw, hu⟩
  have hscan := WrittenStep.scanPath_texts (ε := ε) (show IsFirst first.name from hfirst) others
    (follows_of_ends ends_nil)
  rw [hsteps]
  simpa [first, WrittenStep.text, WrittenStep.raws] using hscan

end RawStep

/-- What is scanned alike from texts without blanks in front denotes the same. -/
theorem Scanner.entire_congr {α : Type} {p : Scanner ExpressionError α} {s s' : List Char}
    (hs : Stops Char.isWhitespace s) (hs' : Stops Char.isWhitespace s') (h : p s = p s') :
    p.entire (String.ofList s) = p.entire (String.ofList s') := by
  have hpadded : (do blanks; let a ← p; blanks; pure a : Scanner ExpressionError α) s =
      (do blanks; let a ← p; blanks; pure a : Scanner ExpressionError α) s' := by
    rw [bind_found (blanks_of_stops hs), bind_found (blanks_of_stops hs'), bind_apply, h]
    rfl
  unfold entire whole
  simp only [String.toList_ofList, hpadded]

namespace PropertyPath

variable {w t t' : List Char} {steps : List RawStep}

/-- All texts that write the same steps behind a first name denote the same property path, or fail
alike: each is scanned to its end, and what the steps are sorted as does not hang on the text. -/
theorem parse_of_spells (ctx : Context) (hw : RawStep.IsWord w) (hfirst : RawStep.IsFirst w)
    (h : RawStep.Spells steps t) (h' : RawStep.Spells steps t') :
    parse ctx (String.ofList (w ++ t)) = parse ctx (String.ofList (w ++ t')) := by
  refine entire_congr (hw.stops_isWhitespace t) (hw.stops_isWhitespace t') ?_
  unfold scan
  rw [bind_apply, bind_apply, RawStep.scanPath_of_spells hw hfirst h,
    RawStep.scanPath_of_spells hw hfirst h']

end PropertyPath

/-- An index can be written in brackets or behind a slash. In a resource path that is read, any
index in brackets behind whole segments can be written as a segment of its own, with what stands
behind it, and the path stays the same in all but its text; and every index of a path stands like
that. All texts that write a name that paths can begin with and steps behind it, each index in
either way and with zeros in front of its digits or not, denote the same property path or fail
alike. -/
theorem index_notations_agree :
    (∀ (model : Registry) (root : String) (version : Version) (front digits back : List Char)
      (p : ResourcePath), (Segment.ofPath? (String.ofList front)).isSome →
      (∀ c ∈ digits, c.isDigit = true) →
      ResourcePath.parse model root version
        (String.ofList (front ++ '[' :: digits ++ ']' :: back)) = .ok p →
      ∃ q, ResourcePath.parse model root version
          (String.ofList (front ++ '/' :: digits ++ back)) = .ok q ∧
        q.same p = true ∧ q = { p with raw := q.raw }) ∧
    (∀ (path : String) (init others : List Segment) (s : Segment) (i : UInt64) (more : List UInt64),
      Segment.ofPath? path = some (init ++ ⟨s.name, s.key, s.indices ++ i :: more⟩ :: others) →
      ∃ front digits back, path = String.ofList (front ++ '[' :: digits ++ ']' :: back) ∧
        (∀ c ∈ digits, c.isDigit = true) ∧
        Segment.ofPath? (String.ofList front) = some (init ++ [s])) ∧
    ∀ (ctx : Context) (first : List Char) (steps : List RawStep) (others others' : List Char),
      RawStep.IsWord first → RawStep.IsFirst first → RawStep.Spells steps others →
      RawStep.Spells steps others' →
      PropertyPath.parse ctx (String.ofList (first ++ others)) =
        PropertyPath.parse ctx (String.ofList (first ++ others')) := by
  refine ⟨fun model root version front digits back p hfront hdigits h ↦ ?_,
    fun path init others s i more h ↦ Segment.exists_front h,
    fun ctx first steps others others' hword hfirst h h' ↦
      PropertyPath.parse_of_spells ctx hword hfirst h h'⟩
  exact ⟨_, ResourcePath.parse_slashed hfront hdigits h, by simp [ResourcePath.same], rfl⟩

/-- What `/Exhibits('[1]')/notes/a[2][3]/b` is read as in the museum. -/
def Museum.indexedPath : ResourcePath where
  elements :=
    [.entitySet "Exhibit" "Exhibits" none none,
      .entity "Exhibit" (some (.string "[1]")) none (some 0), .property "notes" 1, .custom "a" 2,
      .index 2 3, .index 3 4, .custom "b" 5]
  main := 1
  mainType := "Exhibit"
  suffix := none
  serviceRoot := "http://museum"
  version := .v1_1
  raw := "/Exhibits('[1]')/notes/a[2][3]/b"

/-- The theorem at the first index of a path into the notes of an exhibit, whose key holds brackets,
and at property paths to the same place. -/
theorem museum_index_notations_agree :
    (∃ p q, ResourcePath.parse Museum.model "http://museum" .v1_1
        "/Exhibits('[1]')/notes/a[2][3]/b" = .ok p ∧
      ResourcePath.parse Museum.model "http://museum" .v1_1
        "/Exhibits('[1]')/notes/a/2[3]/b" = .ok q ∧ q.same p = true) ∧
      (∃ front digits back, "/Exhibits('[1]')/notes/a[2][3]/b" =
          String.ofList (front ++ '[' :: digits ++ ']' :: back) ∧
        (∀ c ∈ digits, c.isDigit = true) ∧ Segment.ofPath? (String.ofList front) =
          some [⟨"Exhibits", some "'[1]'", []⟩, ⟨"notes", none, []⟩, ⟨"a", none, []⟩]) ∧
      PropertyPath.parse Museum.context "notes/2[03]/b" =
        PropertyPath.parse Museum.context "notes[2]/3/b" := by
  obtain ⟨hresource, hindex, hproperty⟩ := index_notations_agree
  have htwo : RawStep.IsDigits ['2'] 2 := ⟨by decide, List.all_eq_true.mp rfl, rfl⟩
  have hthree : RawStep.IsDigits ['3'] 3 := ⟨by decide, List.all_eq_true.mp rfl, rfl⟩
  have hzero : RawStep.IsDigits ['0', '3'] 3 := ⟨by decide, List.all_eq_true.mp rfl, rfl⟩
  have hnotes : RawStep.IsWord "notes".toList := .inr ⟨by decide, List.all_eq_true.mp rfl⟩
  have hb : RawStep.IsWord ['b'] := .inr ⟨by decide, List.all_eq_true.mp rfl⟩
  have hfront : (Segment.ofPath? "/Exhibits('[1]')/notes/a").isSome := by decide +kernel
  have hp : ResourcePath.parse Museum.model "http://museum" .v1_1
      "/Exhibits('[1]')/notes/a[2][3]/b" = .ok Museum.indexedPath := by decide +kernel
  obtain ⟨q, hq, hsame, -⟩ := hresource Museum.model "http://museum" .v1_1
    "/Exhibits('[1]')/notes/a".toList ['2'] "[3]/b".toList _ hfront htwo.digits hp
  have hsegments : Segment.ofPath? "/Exhibits('[1]')/notes/a[2][3]/b" =
      some ([⟨"Exhibits", some "'[1]'", []⟩, ⟨"notes", none, []⟩] ++
        ⟨"a", none, [] ++ 2 :: [3]⟩ :: [⟨"b", none, []⟩]) := by decide +kernel
  refine ⟨⟨_, q, hp, hq, hsame⟩, hindex _ _ _ ⟨"a", none, []⟩ 2 [3] hsegments, ?_⟩
  exact hproperty Museum.context "notes".toList _ "/2[03]/b".toList "[2]/3/b".toList hnotes rfl
    (.slash htwo (.bracket hzero (.name hb .nil))) (.bracket htwo (.slash hthree (.name hb .nil)))

end SensorQuery
