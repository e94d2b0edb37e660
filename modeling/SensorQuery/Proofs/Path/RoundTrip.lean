import SensorQuery.Proofs.Model.Assembled
import SensorQuery.Proofs.Path.Run
import SensorQuery.Proofs.Path.Segment

/-!
# Paths read back

The elements of a run are written as segments that are resolved by the same run, so a path comes
back from its text. How a path was written is lost: an index after a slash comes back in brackets,
and a key in the one form that keys are written in.
-/

namespace SensorQuery

open Fallible
open Segment (IsName)

namespace Resolution

variable {model : Registry} {r r' : Resolution} {segments : List Segment}

/-- The segments write the elements of the resolution and are resolved to it. -/
structure Writes (model : Registry) (segments : List Segment) (r : Resolution) : Prop where
  written : ∀ s ∈ segments, s.IsWritten ∧ Suffix.ofName? s.name = none
  texts : segments.flatMap Segment.text = r.elements.flatMap PathElement.text
  resolved : segments.foldlM (step model) start = .ok r
  /-- A set was reached by a segment that may take a key. -/
  opens : ∀ t, r.place = .set t → ∃ front name r₀, segments = front ++ [⟨name, none, []⟩] ∧
    front.foldlM (step model) start = .ok r₀ ∧
    ∀ key, r₀.nameStep model ⟨name, key, []⟩ = r.enterSet t key

private theorem writes_nil : Writes model [] start where
  written s hs := by cases hs
  texts := rfl
  resolved := rfl
  opens t ht := by cases ht

private theorem Writes.name (h : Writes model segments r) {name : String} (hname : IsName name)
    {e : PathElement} {place : Place} (htext : e.text = '/' :: name.toList)
    (hstep : r.nameStep model ⟨name, none, []⟩ = .ok (r.push e place))
    (hset : ∀ t, place = .set t → ∀ key,
      r.nameStep model ⟨name, key, []⟩ = (r.push e place).enterSet t key) :
    Writes model (segments ++ [⟨name, none, []⟩]) (r.push e place) where
  written := List.forall_mem_append.mpr ⟨h.written, List.forall_mem_singleton.mpr
    ⟨⟨hname.writable, fun key hkey ↦ by cases hkey⟩, hname.noSuffix⟩⟩
  texts := by simp [h.texts, push, Segment.text, htext]
  resolved := by
    rw [List.foldlM_append, h.resolved, ok_bind, List.foldlM_cons, step, hstep]
    rfl
  opens t ht := ⟨segments, name, r, rfl, h.resolved, hset t ht⟩

private theorem Writes.index (h : Writes model segments r) {i : UInt64} {place : Place}
    (hroot : r.place ≠ .root) (hplace : ∀ t, place ≠ .set t)
    (hpush : ∀ name, r.pushIndex name i = .ok (r.push (.index i r.parent) place)) :
    ∃ segments', Writes model segments' (r.push (.index i r.parent) place) := by
  obtain ⟨written, texts, resolved, -⟩ := h
  rcases List.eq_nil_or_concat segments with rfl | ⟨front, s, hsegments⟩
  · cases resolved
    exact absurd rfl hroot
  · rw [List.concat_eq_append] at hsegments
    subst hsegments
    obtain ⟨hfront, hs⟩ := List.forall_mem_append.mp written
    obtain ⟨hwritten, hsuffix⟩ := List.forall_mem_singleton.mp hs
    refine ⟨front ++ [{ s with indices := s.indices ++ [i] }], ?_, ?_, ?_,
      fun t ht ↦ absurd ht (hplace t)⟩
    · exact List.forall_mem_append.mpr
        ⟨hfront, List.forall_mem_singleton.mpr ⟨⟨hwritten.name, hwritten.key⟩, hsuffix⟩⟩
    · have hone : Segment.text { s with indices := s.indices ++ [i] } =
          s.text ++ (PathElement.index i r.parent).text := by
        simp [Segment.text, Segment.indexText, PathElement.text]
      rw [push, List.flatMap_append, List.flatMap_append, List.flatMap_singleton,
        List.flatMap_singleton, hone, ← List.append_assoc, ← texts, List.flatMap_append,
        List.flatMap_singleton]
    · rw [List.foldlM_append] at resolved ⊢
      obtain ⟨r₀, hr₀, hlast⟩ := bind_eq_ok.mp resolved
      rw [hr₀, ok_bind]
      rw [List.foldlM_cons] at hlast ⊢
      obtain ⟨_, hlast, hnil⟩ := bind_eq_ok.mp hlast
      cases hnil
      obtain ⟨named, hnamed, hindices⟩ := bind_eq_ok.mp hlast
      have hstep : r₀.step model { s with indices := s.indices ++ [i] } =
          .ok (r.push (.index i r.parent) place) := by
        rw [step]
        refine (congrArg (· >>= _) hnamed).trans ?_
        rw [ok_bind, List.foldlM_append, hindices, ok_bind, List.foldlM_cons, hpush]
        rfl
      rw [hstep]
      rfl

private theorem Writes.key (h : Writes model segments r) {t : EntityType} {k : Key}
    (hplace : r.place = .set t) (hkind : k.kind = t.keyKind) :
    ∃ segments', Writes model segments'
      (r.push (.entity t.name (some k) none (some r.parent)) (.entity t)) := by
  obtain ⟨front, name, r₀, rfl, hr₀, hstep⟩ := h.opens t hplace
  obtain ⟨hfront, hs⟩ := List.forall_mem_append.mp h.written
  obtain ⟨hwritten, hsuffix⟩ := List.forall_mem_singleton.mp hs
  have henter : r.enterSet t (some (String.ofList k.text)) =
      .ok (r.push (.entity t.name (some k) none (some r.parent)) (.entity t)) := by
    have hparse := k.parse_text
    rw [hkind] at hparse
    simp only [enterSet, hparse]
  refine ⟨front ++ [⟨name, some (String.ofList k.text), []⟩], ?_, ?_, ?_, fun t ht ↦ by cases ht⟩
  · refine List.forall_mem_append.mpr ⟨hfront, List.forall_mem_singleton.mpr ⟨⟨hwritten.name, ?_⟩,
      hsuffix⟩⟩
    rintro _ ⟨⟩
    exact ⟨k, rfl⟩
  · have hone : Segment.text ⟨name, some (String.ofList k.text), []⟩ =
        Segment.text ⟨name, none, []⟩ ++
          (PathElement.entity t.name (some k) none (some r.parent)).text := by
      simp [Segment.text, Segment.keyText, PathElement.text, PathElement.keyText]
    rw [push, List.flatMap_append, List.flatMap_append, List.flatMap_singleton,
      List.flatMap_singleton, hone, ← List.append_assoc, ← h.texts, List.flatMap_append,
      List.flatMap_singleton]
  · rw [List.foldlM_append, hr₀, ok_bind, List.foldlM_cons, step, hstep, henter]
    rfl

/-- No value is a set. -/
theorem ofValue_ne_set (type : ValueType) (t : EntityType) : Place.ofValue type ≠ .set t := by
  unfold Place.ofValue
  split <;> simp

-- Whatever can be added behind elements that are written can be written.
private theorem Writes.push (h : Writes model segments r) {e : PathElement} {place : Place}
    (hlead : Leads model r.parent r.place e place) :
    ∃ segments', Writes model segments' (r.push e place) := by
  obtain ⟨elements, here⟩ := r
  cases hlead with
  | root plural set =>
    refine ⟨_, h.name plural rfl ?_ ?_⟩
    · simp only [nameStep, rootStep, set]
      rfl
    · rintro _ ⟨⟩ key
      simp only [nameStep, rootStep, set]
  | key kind => exact h.key rfl kind
  | property name own =>
    refine ⟨_, h.name name rfl ?_ fun t ht ↦ absurd ht (ofValue_ne_set _ t)⟩
    simp only [nameStep, entityStep, own]
    rfl
  | many name own leads toMany =>
    refine ⟨_, h.name name rfl ?_ ?_⟩
    · simp only [nameStep, entityStep, own, leads, toMany]
      rfl
    · rintro _ ⟨⟩ key
      simp only [nameStep, entityStep, own, leads, toMany, ite_true]
  | one name own leads toOne =>
    refine ⟨_, h.name name ?_ ?_ fun t ht ↦ by cases ht⟩
    · simp [PathElement.text]
    · simp only [nameStep, entityStep, own, leads, toOne]
      rfl
  | item => exact h.index (by simp) (ofValue_ne_set _) fun name ↦ rfl
  | field isName complex own =>
    refine ⟨_, h.name isName rfl ?_ fun t ht ↦ absurd ht (ofValue_ne_set _ t)⟩
    simp only [nameStep, valueStep, complex, own]
    rfl
  | openField isName complex other isOpen =>
    refine ⟨_, h.name isName rfl ?_ fun t ht ↦ by cases ht⟩
    simp only [nameStep, valueStep, complex, other, isOpen]
    rfl
  | anyIndex => exact h.index (by simp) (fun t ht ↦ by cases ht) fun name ↦ rfl
  | anyName isName noIndex =>
    refine ⟨_, h.name isName rfl ?_ fun t ht ↦ by cases ht⟩
    simp only [nameStep, anythingStep, noIndex]
    rfl

private theorem Writes.run {es : List PathElement} {last : Place} (h : Writes model segments r)
    (hrun : Run model r.place r.elements.length es last) :
    ∃ segments', Writes model segments' ⟨r.elements ++ es, last⟩ := by
  induction es generalizing r segments with
  | nil =>
    cases hrun
    rw [List.append_nil]
    exact ⟨segments, h⟩
  | cons e es ih =>
    obtain ⟨⟩ | ⟨head, tail⟩ := hrun
    obtain ⟨segments', hpush⟩ := h.push head
    have hmore := ih hpush (by simpa [Resolution.push] using tail)
    simpa [Resolution.push] using hmore

/-- The elements of a run from the root are written as segments. -/
theorem exists_writes {es : List PathElement} {last : Place} (h : Run model .root 0 es last) :
    ∃ segments, Writes model segments ⟨es, last⟩ := writes_nil.run h

private theorem steps_append (hnames : ∀ s ∈ segments, Suffix.ofName? s.name = none)
    (r : Resolution) (rest : List Segment) :
    r.steps model (segments ++ rest) =
      segments.foldlM (step model) r >>= fun next ↦ next.steps model rest := by
  induction segments generalizing r with
  | nil => rfl
  | cons s segments ih =>
    obtain ⟨hs, hsegments⟩ := List.forall_mem_cons.mp hnames
    rw [List.cons_append, steps, hs, List.foldlM_cons, bind_assoc]
    exact congrArg _ (funext fun next ↦ ih hsegments next)

end Resolution

namespace Suffix

private def segment (suffix : Suffix) : Segment := ⟨suffix.text, none, []⟩

private theorem ofName?_text (suffix : Suffix) : ofName? suffix.text = some suffix := by
  cases suffix <;> decide

private theorem isWritten_segment (suffix : Suffix) : suffix.segment.IsWritten := by
  refine ⟨?_, fun key hkey ↦ by cases hkey⟩
  cases suffix <;> exact ⟨by decide, by decide⟩

private theorem steps_segment (model : Registry) {r : Resolution} {suffix : Option Suffix}
    (h : Fits r.elements suffix) :
    r.steps model (suffix.toList.map segment) = .ok (r, suffix) := by
  cases suffix with
  | none => rfl
  | some suffix =>
    have hcheck : r.checkSuffix suffix.segment true suffix = .ok () :=
      Resolution.checkSuffix_eq_ok.mpr ⟨rfl, rfl, rfl, h⟩
    rw [Option.toList_some, List.map_singleton, Resolution.steps]
    simp only [segment, ofName?_text]
    refine (congrArg (· >>= _) hcheck).trans rfl

end Suffix

namespace ResourcePath

variable {model : Registry} {p q : ResourcePath} {root : String} {version : Version}

/-- The path could have been read: its elements are a run from the root, its suffix fits, and its
main element is the last entity or entity set. -/
structure Formed (model : Registry) (p : ResourcePath) : Prop where
  ne_nil : p.elements ≠ []
  exists_run : ∃ last, Run model .root 0 p.elements last
  fits : Suffix.Fits p.elements p.suffix
  eq_ofElements : p = ofElements p.elements p.suffix p.serviceRoot p.version p.raw

/-- Whatever is read as a path could have been read. -/
theorem formed_of_parse {t : String} (h : parse model root version t = .ok p) :
    p.Formed model := by
  obtain ⟨segments, r, suffix, hsegments, hsteps, rfl⟩ := exists_steps_of_parse h
  obtain ⟨hne, hnames⟩ := Segment.writable_of_ofPath? hsegments
  obtain ⟨⟨es, hes, hrun⟩, hfits, hgrows⟩ := Resolution.extends_of_steps hnames hsteps
  have helements : r.elements = es := hes
  exact ⟨hgrows hne, ⟨r.place, helements ▸ hrun⟩, hfits, rfl⟩

/-- A path that could have been read is read from its text. -/
theorem Formed.parse_text (h : p.Formed model) (root : String) (version : Version) :
    parse model root version (String.ofList p.text) =
      .ok (ofElements p.elements p.suffix root version (String.ofList p.text)) := by
  obtain ⟨hne, ⟨last, hrun⟩, hfits, -⟩ := h
  obtain ⟨segments, written, texts, resolved, -⟩ := Resolution.exists_writes hrun
  have hsegments : segments ≠ [] := by
    rintro rfl
    rw [List.foldlM_nil] at resolved
    exact hne (congrArg Resolution.elements (Except.ok.inj resolved)).symm
  have htext : p.text = (segments ++ p.suffix.toList.map Suffix.segment).flatMap Segment.text := by
    rw [List.flatMap_append, texts, text]
    cases p.suffix <;> simp [Suffix.segment, Segment.text]
  have hpath : Segment.ofPath? (String.ofList p.text) =
      some (segments ++ p.suffix.toList.map Suffix.segment) := by
    rw [htext]
    refine Segment.ofPath?_texts (by simp [hsegments]) (List.forall_mem_append.mpr
      ⟨fun s hs ↦ (written s hs).1, List.forall_mem_map.mpr fun s _ ↦ s.isWritten_segment⟩)
  have hsteps : Resolution.start.steps model (segments ++ p.suffix.toList.map Suffix.segment) =
      .ok (⟨p.elements, last⟩, p.suffix) := by
    rw [Resolution.steps_append fun s hs ↦ (written s hs).2, resolved, ok_bind,
      Suffix.steps_segment model hfits]
  exact parse_of_steps hpath hsteps root version

/-- The elements and the suffix decide what else paths are compared by. -/
theorem Formed.same_iff (hp : p.Formed model) (hq : q.Formed model) :
    p.same q = true ↔ p.elements = q.elements ∧ p.suffix = q.suffix := by
  simp only [same, Bool.and_eq_true, decide_eq_true_eq]
  constructor
  · rintro ⟨⟨helements, -⟩, hsuffix⟩
    exact ⟨helements, hsuffix⟩
  · rintro ⟨helements, hsuffix⟩
    refine ⟨⟨helements, ?_⟩, hsuffix⟩
    rw [hp.eq_ofElements, hq.eq_ofElements, ofElements, ofElements, helements]

/-- A path that could have been read is the same as what is read from its text. -/
theorem Formed.exists_parse_text (h : p.Formed model) (root : String) (version : Version) :
    ∃ p', parse model root version (String.ofList p.text) = .ok p' ∧ p'.same p = true := by
  have hread := h.parse_text root version
  exact ⟨_, hread, ((formed_of_parse hread).same_iff h).mpr ⟨rfl, rfl⟩⟩

end ResourcePath

/-- A path that was read is read again from its text, as a path with the same elements, main element
and suffix. So two paths that were read in one model are the same exactly if their texts are. -/
theorem path_reads_back (model : Registry) (root : String) (version : Version) (t : String)
    (p : ResourcePath) (h : ResourcePath.parse model root version t = .ok p) :
    (∃ p', ResourcePath.parse model root version (String.ofList p.text) = .ok p' ∧
      p'.same p = true) ∧
    ∀ (root' : String) (version' : Version) (t' : String) (q : ResourcePath),
      ResourcePath.parse model root' version' t' = .ok q → (p.same q = true ↔ p.text = q.text) := by
  have hp := ResourcePath.formed_of_parse h
  refine ⟨hp.exists_parse_text root version, fun root' version' t' q hread ↦ ?_⟩
  have hq := ResourcePath.formed_of_parse hread
  rw [hp.same_iff hq]
  constructor
  · rintro ⟨helements, hsuffix⟩
    rw [ResourcePath.text, ResourcePath.text, helements, hsuffix]
  · intro htext
    have hagain := hp.parse_text root version
    rw [htext, hq.parse_text root version] at hagain
    have hone := Except.ok.inj hagain
    exact ⟨(congrArg ResourcePath.elements hone).symm, (congrArg ResourcePath.suffix hone).symm⟩

/-- What `/Rooms(07)/exhibits('o''b')/notes/a/2[3]/$value` is read as in the museum. -/
def Museum.notePath : ResourcePath where
  elements :=
    [.entitySet "Room" "Rooms" none none, .entity "Room" (some (.long 7)) none (some 0),
      .entitySet "Exhibit" "Exhibits" (some "exhibits") (some 1),
      .entity "Exhibit" (some (.string "o'b")) none (some 2), .property "notes" 3, .custom "a" 4,
      .index 2 5, .index 3 6]
  main := 3
  mainType := "Exhibit"
  suffix := some .value
  serviceRoot := "http://museum"
  version := .v1_1
  raw := "/Rooms(07)/exhibits('o''b')/notes/a/2[3]/$value"

/-- The text is read as that path. -/
theorem Museum.parse_notePath :
    ResourcePath.parse model notePath.serviceRoot notePath.version notePath.raw = .ok notePath := by
  decide +kernel

/-- The theorem at a path whose text is not the one that it was read from. -/
theorem museum_path_reads_back : ∃ p', ResourcePath.parse Museum.model "http://museum" .v1_1
    (String.ofList Museum.notePath.text) = .ok p' ∧ p'.same Museum.notePath = true :=
  (path_reads_back Museum.model _ _ _ _ Museum.parse_notePath).1

end SensorQuery
