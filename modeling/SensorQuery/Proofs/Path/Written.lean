import SensorQuery.Proofs.Path.Run
import SensorQuery.Proofs.Path.Segment
import SensorQuery.Proofs.Query.PropertyPath

/-!
# Steps as texts write them

Resource paths and property paths write a step in the same way, as a name and indices in brackets.
So a step that one of them reads can be read by the other.
-/

namespace SensorQuery

open Scanner
open Segment (WritesIndices)

namespace RawStep

variable {ε : Type}

private theorem scanIndex_digits (ds rest : List Char) (i : UInt64) (hne : ds ≠ [])
    (hdigits : ∀ c ∈ ds, c.isDigit = true) (hnumber : Numeral.uint64? ds = some i) :
    (scanIndex : Scanner ε RawStep) ('[' :: ds ++ ']' :: rest) = .found (.index i) rest := by
  unfold scanIndex
  rw [List.cons_append, bind_found (char_cons '[' _),
    bind_found (digits_append hne hdigits ((stops_cons _ _ _).mpr (by decide))), hnumber,
    bind_found (ofOption_some i _), bind_found (char_cons ']' rest)]
  rfl

private theorem exists_digits_of_scanIndex {s rest : List Char} {r : RawStep}
    (h : (scanIndex : Scanner ε RawStep) s = .found r rest) :
    ∃ ds i, s = '[' :: ds ++ ']' :: rest ∧ r = .index i ∧ ds ≠ [] ∧
      (∀ c ∈ ds, c.isDigit = true) ∧ Numeral.uint64? ds = some i := by
  obtain ⟨_, _, hopen, h⟩ := bind_eq_found.mp h
  obtain ⟨ds, _, hdigits, h⟩ := bind_eq_found.mp h
  obtain ⟨i, _, hnumber, h⟩ := bind_eq_found.mp h
  obtain ⟨_, _, hclose, h⟩ := bind_eq_found.mp h
  cases h
  obtain ⟨rfl, hne, hall, -⟩ := run1_eq_found.mp hdigits
  obtain ⟨hi, rfl⟩ := ofOption_eq_found.mp hnumber
  refine ⟨ds, i, ?_, rfl, hne, hall, hi⟩
  rw [char_eq_found.mp hopen, char_eq_found.mp hclose]
  simp

private theorem exists_of_many_scanIndex {s rest : List Char} {raws : List RawStep}
    (h : (many scanIndex : Scanner ε (List RawStep)) s = .found raws rest) :
    ∃ u is, s = u ++ rest ∧ WritesIndices u is ∧ raws = is.map .index :=
  WritesIndices.exists_of_chain exists_digits_of_scanIndex (chain_of_many h)

/-- No blank stands in front of a word. -/
theorem IsWord.stops_isWhitespace {w : List Char} (h : IsWord w) (rest : List Char) :
    Stops Char.isWhitespace (w ++ rest) := by
  rcases h with rfl | ⟨hne, hname⟩
  · exact (stops_cons _ _ _).mpr (by decide)
  · obtain ⟨c, w, rfl⟩ := List.exists_cons_of_ne_nil hne
    exact (stops_cons _ _ _).mpr (not_isWhitespace_of_isNameChar c (hname c List.mem_cons_self))

/-- A name is an index to a resource path exactly if it is one to a property path. -/
theorem indexOfName?_ofList {w : List Char} (hne : w ≠ []) :
    Resolution.indexOfName? (String.ofList w) =
      match ofName w with
      | .index i => some i
      | .name _ => none := by
  have hscan (hdigits : w.all Char.isDigit = true) :
      (Segment.scanNumber : Scanner Empty UInt64) w = ofOption (Numeral.uint64? w) [] := by
    have hfound := digits_append (ε := Empty) hne (List.all_eq_true.mp hdigits) (stops_nil _)
    rw [List.append_nil] at hfound
    exact bind_found hfound
  unfold Resolution.indexOfName?
  rw [String.toList_ofList]
  by_cases hdigits : w.all Char.isDigit = true
  · rw [ofName, if_pos hdigits]
    cases hnumber : Numeral.uint64? w with
    | some i =>
      apply whole?_of_found
      rw [hscan hdigits, hnumber, ofOption_some]
    | none =>
      rw [whole?, whole, hscan hdigits, hnumber]
      rfl
  · rw [ofName, if_neg hdigits]
    cases hwhole : (Segment.scanNumber : Scanner Empty UInt64).whole? w with
    | none => rfl
    | some i =>
      obtain ⟨ds, mid, hds, hi⟩ := bind_eq_found.mp (whole?_eq_some.mp hwhole)
      obtain ⟨rfl, -, hall, -⟩ := run1_eq_found.mp hds
      obtain ⟨-, rfl⟩ := ofOption_eq_found.mp hi
      rw [List.append_nil] at hdigits
      exact absurd (List.all_eq_true.mpr hall) hdigits

end RawStep

/-- A step as a text writes it: a name, and indices in brackets behind it. -/
structure WrittenStep where
  name : List Char
  indexText : List Char
  indices : List UInt64
  isWord : RawStep.IsWord name
  writes : WritesIndices indexText indices

namespace WrittenStep

/-- The text of the step. -/
def text (s : WrittenStep) : List Char := s.name ++ s.indexText

/-- What a property path reads the step as. -/
def raws (s : WrittenStep) : List RawStep := RawStep.ofName s.name :: s.indices.map .index

/-- What a resource path reads the step as, with a key behind the name. -/
def segment (s : WrittenStep) (key : Option Key) : Segment :=
  ⟨String.ofList s.name, key.map fun k ↦ String.ofList k.text, s.indices⟩

variable {ε : Type}

/-- A step has a name. -/
theorem ne_nil (s : WrittenStep) : s.name ≠ [] := by
  rcases s.isWord with hname | ⟨hne, -⟩
  · rw [hname]
    decide
  · exact hne

/-- The characters of a name end neither the name nor the step, in either sort of paths. -/
theorem isNameChar_of_mem (s : WrittenStep) :
    ∀ c ∈ s.name, Segment.isNameChar c = true ∧ c ≠ '$' := by
  have hchar (c : Char) (hc : RawStep.isNameChar c = true) :
      Segment.isNameChar c = true ∧ c ≠ '$' := by
    have hother : ∀ d ∈ ['/', '(', ')', '[', ']', '$'], c ≠ d := by
      rintro d hd rfl
      have hnone : (['/', '(', ')', '[', ']', '$'].all fun d ↦ !RawStep.isNameChar d) = true := by
        decide
      have hd := List.all_eq_true.mp hnone _ hd
      rw [hc] at hd
      cases hd
    simp [Segment.isNameChar, hother]
  rcases s.isWord with hname | ⟨-, hname⟩
  · have halias :
        (PathStep.keyAlias.toList.all fun c ↦ Segment.isNameChar c && c != '$') = true := by
      decide
    rw [hname]
    simpa using halias
  · exact fun c hc ↦ hchar c (hname c hc)

/-- The name may be written in a resource path, and is no suffix. -/
theorem isName (s : WrittenStep) : Segment.IsName (String.ofList s.name) := by
  refine ⟨⟨?_, ?_⟩, ?_⟩
  · exact fun hempty ↦ s.ne_nil (String.ofList_eq_empty_iff.mp hempty)
  · rw [String.toList_ofList]
    exact List.all_eq_true.mpr fun c hc ↦ (s.isNameChar_of_mem c hc).1
  · have hsuffix (suffix : Suffix) : String.ofList s.name ≠ suffix.text := by
      intro heq
      have hdollar : '$' ∈ s.name := by
        rw [← String.toList_ofList (l := s.name), heq]
        cases suffix <;> decide
      exact (s.isNameChar_of_mem '$' hdollar).2 rfl
    rw [Suffix.ofName?, if_neg (hsuffix .reference), if_neg (hsuffix .value)]

/-- A resource path reads the step, and a key behind its name. -/
theorem reads (s : WrittenStep) (key : Option Key) :
    Segment.Reads (s.name ++ ((s.segment key).key.map Segment.keyText).getD [] ++ s.indexText)
      (s.segment key) := by
  have hkey : ∀ word ∈ (s.segment key).key, ∃ k : Key, word = String.ofList k.text := by
    intro word hword
    obtain ⟨k, -, rfl⟩ := Option.map_eq_some_iff.mp hword
    exact ⟨k, rfl⟩
  have hread := Segment.reads_written s.isName.writable hkey s.writes
  rwa [String.toList_ofList] at hread

/-- A resource path reads the step without a key. -/
theorem reads_text (s : WrittenStep) : Segment.Reads s.text (s.segment none) := by
  have hread := s.reads none
  simpa [text, segment] using hread

/-- No slash stands in a step. -/
theorem slash_not_mem (s : WrittenStep) : '/' ∉ s.text := by
  intro hmem
  rcases List.mem_append.mp hmem with hmem | hmem
  · exact absurd (s.isNameChar_of_mem '/' hmem).1 (by decide)
  · exact absurd (s.writes.isIndexChar _ hmem) (by decide)

/-- The steps in a row, as either sort of paths writes them. -/
def texts (steps : List WrittenStep) : List Char := steps.flatMap fun s ↦ '/' :: s.text

-- What is read in groups of a name and its indices is made of steps.
private theorem exists_of_groups {t rest : List Char} {groups : List (List RawStep)}
    (h : Chain (do char '/'; RawStep.scanNamed : Scanner ε (List RawStep)) groups t rest) :
    ∃ steps, t = texts steps ++ rest ∧ groups = steps.map raws := by
  induction h with
  | nil s => exact ⟨[], rfl, rfl⟩
  | cons head _ ih =>
    obtain ⟨steps, rfl, rfl⟩ := ih
    obtain ⟨_, _, hslash, head⟩ := bind_eq_found.mp head
    obtain ⟨w, _, hname, head⟩ := bind_eq_found.mp head
    obtain ⟨indices, _, hindices, head⟩ := bind_eq_found.mp head
    cases head
    obtain ⟨rfl, hw, -⟩ := RawStep.scanName_eq_found hname
    obtain ⟨u, is, rfl, hu, rfl⟩ := RawStep.exists_of_many_scanIndex hindices
    obtain rfl := char_eq_found.mp hslash
    exact ⟨⟨w, u, is, hw, hu⟩ :: steps, by simp [texts, text], rfl⟩

/-- What is read as a path is made of steps, the first of which begins as a path does. -/
theorem exists_of_scanPath {t rest : List Char} {raws : List RawStep}
    (h : (RawStep.scanPath : Scanner ε (List RawStep)) t = .found raws rest) :
    ∃ first others, RawStep.IsFirst first.name ∧ t = text first ++ texts others ++ rest ∧
      raws = (first :: others).flatMap WrittenStep.raws := by
  obtain ⟨w, _, hname, hbody⟩ := bind_eq_found.mp h
  obtain ⟨rfl, hw, -⟩ := RawStep.scanName_eq_found hname
  split at hbody
  · next hfirst =>
    obtain ⟨indices, _, hindices, hbody⟩ := bind_eq_found.mp hbody
    obtain ⟨groups, _, hgroups, hbody⟩ := bind_eq_found.mp hbody
    cases hbody
    obtain ⟨u, is, rfl, hu, rfl⟩ := RawStep.exists_of_many_scanIndex hindices
    obtain ⟨others, rfl, hothers⟩ := exists_of_groups (chain_of_many hgroups)
    refine ⟨⟨w, u, is, hw, hu⟩, others, hfirst, by simp [text], ?_⟩
    rw [hothers, List.flatMap_cons, ← List.flatMap_def]
    rfl
  · cases hbody

private theorem many_scanIndex_indexText (s : WrittenStep) {rest : List Char}
    (hrest : Stops (· == '[') rest) :
    (many RawStep.scanIndex : Scanner ε (List RawStep)) (s.indexText ++ rest) =
      .found (s.indices.map .index) rest := by
  refine many_of_chain (s.writes.chain RawStep.scanIndex_digits rest)
    (RawStep.scanIndex_missed hrest) ?_
  have hlength := s.writes.length_le
  rw [List.length_map, List.length_append]
  omega

private theorem scanNamed_text (s : WrittenStep) {rest : List Char}
    (hname : Stops RawStep.isNameChar rest) (hindex : Stops (· == '[') rest) :
    (do char '/'; RawStep.scanNamed : Scanner ε (List RawStep)) ('/' :: s.text ++ rest) =
      .found s.raws rest := by
  unfold RawStep.scanNamed text
  rw [List.cons_append, bind_found (char_cons '/' _), List.append_assoc,
    bind_found (RawStep.scanName_append s.isWord (s.writes.stops (by decide) hname)),
    bind_found (s.many_scanIndex_indexText hindex)]
  rfl

private theorem stops_texts {p : Char → Bool} (hslash : p '/' = false) (steps : List WrittenStep)
    {rest : List Char} (hrest : Stops p rest) : Stops p (texts steps ++ rest) := by
  cases steps with
  | nil => exact hrest
  | cons s steps => exact (stops_cons _ _ _).mpr hslash

private theorem chain_texts (steps : List WrittenStep) {rest : List Char}
    (hrest : RawStep.Follows rest) :
    Chain (do char '/'; RawStep.scanNamed : Scanner ε (List RawStep)) (steps.map raws)
      (texts steps ++ rest) rest := by
  induction steps with
  | nil => exact .nil rest
  | cons s steps ih =>
    refine .cons ?_ ih
    rw [texts, List.flatMap_cons, List.append_assoc]
    exact s.scanNamed_text (stops_texts (by decide) steps hrest.name)
      (stops_texts (by decide) steps hrest.index)

/-- Steps are read from their texts, of which the first begins as a path does. -/
theorem scanPath_texts {first : WrittenStep} (hfirst : RawStep.IsFirst first.name)
    (others : List WrittenStep) {rest : List Char} (hrest : RawStep.Follows rest) :
    (RawStep.scanPath : Scanner ε (List RawStep)) (first.text ++ (texts others ++ rest)) =
      .found ((first :: others).flatMap raws) rest := by
  have hgroups : (many (do char '/'; RawStep.scanNamed) : Scanner ε (List (List RawStep)))
      (texts others ++ rest) = .found (others.map raws) rest := by
    refine many_of_chain (chain_texts others hrest) (bind_missed (char_missed hrest.step)) ?_
    have hlength := length_le_flatMap (fun s : WrittenStep ↦ '/' :: s.text) others fun s _ ↦ by simp
    rw [List.length_map, List.length_append, texts]
    omega
  have hname : Stops RawStep.isNameChar (first.indexText ++ (texts others ++ rest)) :=
    first.writes.stops (by decide) (stops_texts (by decide) others hrest.name)
  unfold RawStep.IsFirst at hfirst
  unfold RawStep.scanPath text
  rw [List.append_assoc, bind_found (RawStep.scanName_append first.isWord hname), if_pos hfirst,
    bind_found (first.many_scanIndex_indexText (stops_texts (by decide) others hrest.index))]
  refine (bind_found hgroups).trans ?_
  rw [List.flatMap_cons, List.flatMap_def]
  rfl

end WrittenStep

end SensorQuery
