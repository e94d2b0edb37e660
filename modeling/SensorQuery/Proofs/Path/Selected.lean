import SensorQuery.Proofs.Path.Addressed

/-!
# Resource paths as property paths

What a resource path reads behind an entity as names, a property path reads too. It resolves to the
same value unless a field of a complex type has a number for its name: a property path takes it for
an index, before it is known that the value has a complex type and no elements.
-/

namespace SensorQuery

open Fallible

/-- The element is a part of a value by a name that is a number. -/
def PathElement.isNumbered : PathElement → Bool
  | .custom name _ => (Resolution.indexOfName? name).isSome
  | _ => false

/-- What a step behind a value is sorted as when there are no links. -/
def PathStep.ofRaw : RawStep → PathStep
  | .name name => .custom name
  | .index i => .index i

variable {ctx : Context} {model : Registry} {target : Target}

/-! ### Reading names -/

private theorem Segment.isName_of_word {w : List Char}
    (h : w ≠ [] ∧ ∀ c ∈ w, RawStep.isNameChar c = true) : IsName (String.ofList w) :=
  (⟨w, [], [], .inr h, .nil⟩ : WrittenStep).isName

private theorem WrittenStep.exists_of_words {words : List (List Char)}
    (h : ∀ w ∈ words, w ≠ [] ∧ ∀ c ∈ w, RawStep.isNameChar c = true) :
    ∃ written : List WrittenStep, written.map text = words ∧
      written.map (segment · none) = words.map (⟨String.ofList ·, none, []⟩) ∧
        written.flatMap raws = words.map RawStep.ofName := by
  induction words with
  | nil => exact ⟨[], rfl, rfl, rfl⟩
  | cons w words ih =>
    obtain ⟨hw, hwords⟩ := List.forall_mem_cons.mp h
    obtain ⟨written, htext, hsegment, hraws⟩ := ih hwords
    refine ⟨⟨w, [], [], .inr hw, .nil⟩ :: written, ?_, ?_, ?_⟩
    · rw [List.map_cons, htext, text, List.append_nil]
    · rw [List.map_cons, hsegment]
      rfl
    · rw [List.flatMap_cons, hraws]
      rfl

namespace PropertyPath

/-- Steps of which the first begins as a path does are read as a property path if they can be
sorted. -/
theorem parse_texts {first : WrittenStep} (hfirst : RawStep.IsFirst first.name)
    (others : List WrittenStep) {steps : List PathStep}
    (hsorted : classify ctx .entity ((first :: others).flatMap WrittenStep.raws) = .ok steps) :
    parse ctx (String.ofList (first.text ++ WrittenStep.texts others)) = .ok ⟨steps⟩ := by
  have hscan : scan ctx (first.text ++ WrittenStep.texts others) = .found ⟨steps⟩ [] := by
    have hraws := WrittenStep.scanPath_texts (ε := ExpressionError) hfirst others
      (RawStep.follows_of_ends ends_nil)
    rw [List.append_nil] at hraws
    unfold scan
    rw [Scanner.bind_found hraws, hsorted, Scanner.bind_found (Scanner.ofExcept_ok steps [])]
    rfl
  refine Scanner.entire_of_found ?_ hscan
  rw [WrittenStep.text, List.append_assoc]
  exact first.isWord.stops_isWhitespace _

/-- Behind a value, all steps can be sorted. -/
theorem classify_value (hlinks : ctx.customLinks = false) (raws : List RawStep) :
    classify ctx .value raws = .ok (raws.map .ofRaw) := by
  have hstep (raw : RawStep) : classifyStep ctx .value raw = .ok (.ofRaw raw, .value) := by
    cases raw with
    | index i => rfl
    | name name => exact classifyStep_eq_ok_iff.mpr (.custom (by rw [hlinks]; rfl))
  induction raws with
  | nil => rfl
  | cons raw raws ih =>
    rw [classify, hstep, ok_bind]
    exact congrArg (· >>= fun steps ↦ pure (.ofRaw raw :: steps)) ih

end PropertyPath

/-! ### From a value on -/

namespace Resolution

variable {r r' : Resolution}

-- A name that resolves against a value adds one element. A property path goes on to the same value,
-- unless the element is a field with a number for its name.
private theorem exists_element_of_step (hmeets : Meets target r.place) {w : List Char}
    (hne : w ≠ []) (h : r.step model ⟨String.ofList w, none, []⟩ = .ok r') :
    ∃ e, r'.elements = r.elements ++ [e] ∧
      ((e.isNumbered = true ∧ ∀ mid, target.step model (.ofRaw (.ofName w)) ≠ .ok mid) ∨
        (e.isNumbered = false ∧ ∃ mid, target.step model (.ofRaw (.ofName w)) = .ok mid ∧
          Meets mid r'.place)) := by
  have hindex := RawStep.indexOfName?_ofList hne
  obtain ⟨named, hnamed, hnil⟩ := bind_eq_ok.mp h
  cases hnil
  obtain ⟨elements, place⟩ := r
  cases hmeets with
  | anything =>
    cases hnamed
    rw [anythingStep, hindex]
    rcases RawStep.ofName_eq w with hraw | ⟨i, hraw⟩ <;> rw [hraw] at hindex ⊢
    · exact ⟨_, rfl, .inr ⟨congrArg Option.isSome hindex, _, rfl, .anything⟩⟩
    · exact ⟨_, rfl, .inr ⟨rfl, _, rfl, .anything⟩⟩
  | value type =>
    change valueStep model _ type (String.ofList w) = .ok r' at hnamed
    cases type with
    | list element =>
      simp only [valueStep, hindex] at hnamed
      rcases RawStep.ofName_eq w with hraw | ⟨i, hraw⟩ <;> rw [hraw] at hnamed ⊢ <;> cases hnamed
      exact ⟨_, rfl, .inr ⟨rfl, _, rfl, meets_ofValue element⟩⟩
    | complex owner =>
      obtain ⟨mid, next, hmid, hnext, hstep⟩ | ⟨_, -, hunknown⟩ :=
        valueStep_complex model ⟨elements, .value (.complex owner)⟩ owner (String.ofList w)
      case inr => cases hunknown.symm.trans hnamed
      cases hstep.symm.trans hnamed
      refine ⟨_, rfl, ?_⟩
      rcases RawStep.ofName_eq w with hraw | ⟨i, hraw⟩ <;> rw [hraw] at hindex ⊢
      · exact .inr ⟨congrArg Option.isSome hindex, mid, hmid, hnext⟩
      · exact .inl ⟨congrArg Option.isSome hindex, fun mid hmid ↦ by cases hmid⟩
    | _ => cases hnamed

-- Names that resolve from a value add elements. A property path resolves, too, unless one of the
-- elements is a field with a number for its name.
private theorem resolves_iff_of_steps (hmeets : Meets target r.place) {words : List (List Char)}
    (hwords : ∀ w ∈ words, w ≠ [] ∧ ∀ c ∈ w, RawStep.isNameChar c = true) {suffix : Option Suffix}
    (h : r.steps model (words.map (⟨String.ofList ·, none, []⟩)) = .ok (r', suffix)) :
    ∃ es, r'.elements = r.elements ++ es ∧
      ((∃ X, (words.map (PathStep.ofRaw ∘ RawStep.ofName)).foldlM (Target.step model) target =
          .ok X) ↔ ∀ e ∈ es, e.isNumbered = false) := by
  induction words generalizing r target with
  | nil =>
    cases h
    exact ⟨[], (List.append_nil _).symm, fun _ ↦ List.forall_mem_nil _, fun _ ↦ ⟨target, rfl⟩⟩
  | cons w words ih =>
    obtain ⟨hw, hwords⟩ := List.forall_mem_cons.mp hwords
    rw [List.map_cons, Resolution.steps, (Segment.isName_of_word hw).noSuffix] at h
    obtain ⟨next, hnext, h⟩ := bind_eq_ok.mp h
    obtain ⟨e, he, ⟨hnumbered, hstray⟩ | ⟨hnumbered, mid, hmid, hmeets⟩⟩ :=
      exists_element_of_step hmeets hw.1 hnext
    · -- The property path ends here, whatever the path resolves to.
      have hwritable : ∀ s ∈ words.map (⟨String.ofList ·, none, []⟩ : _ → Segment),
          Segment.Writable s.name :=
        List.forall_mem_map.mpr fun w hw ↦ (Segment.isName_of_word (hwords w hw)).writable
      obtain ⟨⟨es, hes, -⟩, -⟩ := extends_of_steps hwritable h
      refine ⟨e :: es, by rw [hes, he, List.append_assoc, List.singleton_append], ?_, fun hall ↦ ?_⟩
      · rintro ⟨X, hX⟩
        obtain ⟨mid, hmid, -⟩ := bind_eq_ok.mp hX
        exact absurd hmid (hstray mid)
      · rw [hall e List.mem_cons_self] at hnumbered
        cases hnumbered
    · obtain ⟨es, hes, hiff⟩ := ih hmeets hwords h
      refine ⟨e :: es, by rw [hes, he, List.append_assoc, List.singleton_append], ?_⟩
      rw [List.forall_mem_cons, ← hiff, List.map_cons, List.foldlM_cons, Function.comp_apply, hmid]
      exact (and_iff_right hnumbered).symm

end Resolution

/-! ### From an entity on -/

private theorem EntityType.exists_property? {t : EntityType} (ht : t ∈ model.types)
    {prop : EntityProperty} (hprop : .entity prop ∈ t.properties)
    (hother : model.isNavigationName prop.name = false) :
    ∃ p : EntityProperty, t.property? prop.name = some (.entity p) ∧ p.name = prop.name := by
  obtain ⟨own, hown⟩ : ∃ own, t.property? prop.name = some own := t.indexed.exists_find? hprop
  obtain ⟨hmem, hname⟩ := EntityType.mem_of_property? hown
  cases own with
  | entity p => exact ⟨p, hown, hname⟩
  | navigation n =>
    rw [Registry.isNavigationName_iff.mpr ⟨t, ht, n, hmem, hname⟩] at hother
    cases hother

/-- A query that only selects a path can be asked of a type if the path resolves. -/
theorem Query.validate_selected_iff {t : EntityType} {p : PropertyPath} :
    validate model t { empty with select := .ofList [p] } = .ok () ↔
      ∃ X, Target.resolve model t p = .ok X := by
  have hpaths : (Select.ofList [p]).paths = [p] := rfl
  rw [empty, validate, checkPaths, hpaths, validateExpands]
  cases hresolve : Target.resolve model t p <;>
    simp [checkSelected, hresolve, pure, Except.pure, bind, Except.bind]

private theorem PropertyPath.parse_words (hlinks : ctx.customLinks = false) {name : String}
    (hother : ctx.model.isNavigationName name = false)
    (hentity : ctx.model.isEntityPropertyName name = true)
    (hletter : ∀ c ∈ name.toList.head?, Text.isAlphabetic c = true) {words : List (List Char)}
    (hwords : ∀ w ∈ name.toList :: words, w ≠ [] ∧ ∀ c ∈ w, RawStep.isNameChar c = true) :
    parse ctx (String.ofList (Query.joined '/' (name.toList :: words))) =
      .ok ⟨.property name :: words.map (PathStep.ofRaw ∘ RawStep.ofName)⟩ := by
  obtain ⟨hname, hmore⟩ := List.forall_mem_cons.mp hwords
  obtain ⟨others, htexts, -, hraws⟩ := WrittenStep.exists_of_words hmore
  have hfirst : RawStep.IsFirst name.toList := by
    obtain ⟨c, w, hcons⟩ := List.exists_cons_of_ne_nil hname.1
    exact RawStep.isFirst_of_letter ⟨c, by rw [hcons]; rfl, hletter c (by rw [hcons]; rfl)⟩
  have halias := RawStep.ne_keyAlias hname.2
  have hstep : classifyStep ctx .entity (RawStep.ofName name.toList) =
      .ok (.property name, .value) := by
    rw [ofName_of_isFirst hfirst, String.ofList_toList]
    exact classifyStep_eq_ok_iff.mpr (.property halias hother hentity)
  have hsorted : classify ctx .entity (RawStep.ofName name.toList :: words.map RawStep.ofName) =
      .ok (.property name :: words.map (PathStep.ofRaw ∘ RawStep.ofName)) := by
    rw [classify, hstep, ok_bind, ← List.map_map]
    exact congrArg (· >>= fun steps ↦ pure (.property name :: steps)) (classify_value hlinks _)
  let first : WrittenStep := ⟨name.toList, [], [], .inr hname, .nil⟩
  have hparse := parse_texts (show RawStep.IsFirst first.name from hfirst) others (hraws ▸ hsorted)
  have htext : Query.joined '/' (name.toList :: words) =
      first.text ++ WrittenStep.texts others := by
    rw [Query.joined_cons, ← htexts, List.flatMap_map, WrittenStep.text, List.append_nil]
    rfl
  rw [htext, hparse]

-- A path that names one entity of a type goes on from there.
private theorem ResourcePath.exists_steps_of_entity {t : EntityType}
    (hplural : Segment.IsName t.plural) (hset : model.entitySet? t.plural = some t) {k : Key}
    {words : List (List Char)}
    (hwords : ∀ w ∈ words, w ≠ [] ∧ ∀ c ∈ w, RawStep.isNameChar c = true) {root : String}
    {version : Version} {path : ResourcePath}
    (h : parse model root version (String.ofList
      ('/' :: t.plural.toList ++ PathElement.keyText k ++ words.flatMap ('/' :: ·))) = .ok path) :
    ∃ k' r suffix, (⟨[.entitySet t.name t.plural none none,
      .entity t.name (some k') none (some 0)], .entity t⟩ : Resolution).steps model
        (words.map (⟨String.ofList ·, none, []⟩)) = .ok (r, suffix) ∧
          path.elements = r.elements := by
  obtain ⟨written, htexts, hnamed, -⟩ := WrittenStep.exists_of_words hwords
  obtain ⟨segments, r, suffix, hpath, hsteps, rfl⟩ := exists_steps_of_parse h
  have hreads : ∀ x ∈ written.map fun s ↦ (s.text, s.segment none), Segment.Reads x.1 x.2 :=
    List.forall_mem_map.mpr fun s _ ↦ s.reads_text
  have hsegments := Segment.ofPath?_keyed hplural.writable k hreads
  rw [Segment.keyText, String.toList_ofList, List.map_map, List.map_map] at hsegments
  change Segment.ofPath? (String.ofList ('/' :: t.plural.toList ++ PathElement.keyText k ++
    (written.map WrittenStep.text).flatMap ('/' :: ·))) =
      some (⟨t.plural, some (String.ofList k.text), []⟩ :: written.map (·.segment none))
    at hsegments
  rw [htexts, hpath, hnamed] at hsegments
  obtain rfl := Option.some.inj hsegments
  rw [Resolution.steps, hplural.noSuffix] at hsteps
  obtain ⟨first, hfirst, hmore⟩ := bind_eq_ok.mp hsteps
  cases hparse : t.keyKind.parse (String.ofList k.text) with
  | ok k' =>
    rw [Resolution.step_start hset hparse] at hfirst
    cases hfirst
    exact ⟨k', r, suffix, hmore, rfl⟩
  | error e =>
    simp only [Resolution.step, Resolution.nameStep, Resolution.start, Resolution.rootStep, hset,
      Resolution.enterSet, hparse] at hfirst
    cases hfirst

/-- A path that names one entity of a type and goes on with one of its properties and with names
behind it is a property path, too. Selecting it fits the type exactly if the path leads through no
field with a number for its name. -/
theorem selected_path_validates_iff (ctx : Context) (hmodel : ctx.model.Finalized)
    (hnames : ∀ name, ctx.model.isNavigationName name = true →
      ctx.model.isEntityPropertyName name = false)
    (hlinks : ctx.customLinks = false) (t : EntityType) (ht : t ∈ ctx.model.types)
    (hplural : Segment.IsName t.plural) (k : Key) (prop : EntityProperty)
    (hprop : .entity prop ∈ t.properties)
    (hletter : ∀ c ∈ prop.name.toList.head?, Text.isAlphabetic c = true) (words : List (List Char))
    (hwords : ∀ w ∈ prop.name.toList :: words, w ≠ [] ∧ ∀ c ∈ w, RawStep.isNameChar c = true)
    (root : String) (version : Version) (path : ResourcePath)
    (hpath : ResourcePath.parse ctx.model root version (String.ofList
      ('/' :: t.plural.toList ++ PathElement.keyText k ++
        (prop.name.toList :: words).flatMap ('/' :: ·))) = .ok path) :
    ∃ p, PropertyPath.parse ctx (String.ofList (Query.joined '/' (prop.name.toList :: words))) =
        .ok p ∧
      (Query.validate ctx.model t { Query.empty with select := .ofList [p] } = .ok () ↔
        ∀ e ∈ path.elements, e.isNumbered = false) := by
  have hentity : ctx.model.isEntityPropertyName prop.name = true :=
    Registry.isEntityPropertyName_iff.mpr ⟨t, ht, prop, hprop, rfl⟩
  have hother : ctx.model.isNavigationName prop.name = false := by
    rw [Bool.eq_false_iff]
    intro hnavigation
    rw [hnames _ hnavigation] at hentity
    cases hentity
  obtain ⟨own, hown, hname⟩ := EntityType.exists_property? ht hprop hother
  obtain ⟨hfirst, hmore⟩ := List.forall_mem_cons.mp hwords
  have hsuffix := (Segment.isName_of_word hfirst).noSuffix
  rw [String.ofList_toList] at hsuffix
  obtain ⟨k', r, suffix, hsteps, helements⟩ :=
    ResourcePath.exists_steps_of_entity hplural (hmodel.entitySet? ht) hwords hpath
  refine ⟨_, PropertyPath.parse_words hlinks hother hentity hletter hwords, ?_⟩
  rw [Query.validate_selected_iff, helements]
  rw [List.map_cons, String.ofList_toList, Resolution.steps, hsuffix] at hsteps
  obtain ⟨next, hnext, hsteps⟩ := bind_eq_ok.mp hsteps
  obtain rfl : next = ⟨[.entitySet t.name t.plural none none,
      .entity t.name (some k') none (some 0), .property own.name 1], .ofValue own.valueType⟩ := by
    simp only [Resolution.step, Resolution.nameStep, Resolution.entityStep, hown] at hnext
    cases hnext
    rfl
  obtain ⟨es, hes, hiff⟩ :=
    Resolution.resolves_iff_of_steps (meets_ofValue own.valueType) hmore hsteps
  have hresolve (X : Target) : Target.resolve ctx.model t
      ⟨.property prop.name :: words.map (PathStep.ofRaw ∘ RawStep.ofName)⟩ = .ok X ↔
        (words.map (PathStep.ofRaw ∘ RawStep.ofName)).foldlM (Target.step ctx.model)
          (.ofValue own.valueType) = .ok X := by
    rw [Target.resolve, List.foldlM_cons, Target.step, Target.entityStep, hown, ok_bind]
  rw [hes, List.forall_mem_append, ← hiff, exists_congr hresolve]
  refine (and_iff_right ?_).symm
  simp [PathElement.isNumbered]

/-- No name of the museum stands both for a value and for entities. -/
theorem Museum.isEntityPropertyName_of_isNavigationName (name : String)
    (h : Museum.model.isNavigationName name = true) :
    Museum.model.isEntityPropertyName name = false := by
  have hnames : Museum.model.propertyNames.navigation = ["room", "exhibits"] := rfl
  have hname : name = "room" ∨ name = "exhibits" := by
    simpa [Registry.isNavigationName, hnames] using h
  rcases hname with rfl | rfl <;> decide

/-- The theorem at a path into what is known of the maker of an exhibit. -/
theorem museum_selected_path_validates : ∃ p, PropertyPath.parse Museum.context "maker/origin/2" =
    .ok p ∧ Query.validate Museum.model Museum.exhibit
      { Query.empty with select := .ofList [p] } = .ok () := by
  have hpath : ResourcePath.parse Museum.model "http://museum" .v1_1
      "/Exhibits('o''b')/maker/origin/2" = .ok (.ofElements
        [.entitySet "Exhibit" "Exhibits" none none,
          .entity "Exhibit" (some (.string "o'b")) none (some 0), .property "maker" 1,
          .custom "origin" 2, .index 2 3] none "http://museum" .v1_1
        "/Exhibits('o''b')/maker/origin/2") := by decide +kernel
  have hplural : Segment.IsName Museum.exhibit.plural := ⟨⟨by decide, by decide⟩, by decide⟩
  have hletter : ∀ c ∈ "maker".toList.head?, Text.isAlphabetic c = true := by
    rintro _ ⟨⟩
    decide
  have hwords : ∀ w ∈ ["maker".toList, "origin".toList, "2".toList],
      w ≠ [] ∧ ∀ c ∈ w, RawStep.isNameChar c = true := by
    have hall : (["maker".toList, "origin".toList, "2".toList].all fun w ↦
        !w.isEmpty && w.all RawStep.isNameChar) = true := by decide
    simpa using hall
  obtain ⟨p, hp, hiff⟩ := selected_path_validates_iff Museum.context Museum.finalized
    Museum.isEntityPropertyName_of_isNavigationName rfl Museum.exhibit
    Museum.exhibit_mem hplural (.string "o'b")
    ⟨"maker", .complex "Maker", false⟩ (by decide) hletter ["origin".toList, "2".toList] hwords
    "http://museum" .v1_1 _ hpath
  exact ⟨p, hp, hiff.mpr (by decide)⟩

/-- A path through an undeclared field with a number for its name is read. As a property path it is
read with an index, and cannot be selected. -/
theorem numbered_field_does_not_validate :
    (∃ path, ResourcePath.parse Museum.model "http://museum" .v1_1 "/Exhibits('o''b')/maker/5" =
      .ok path) ∧
    PropertyPath.parse Museum.context "maker/5" = .ok ⟨[.property "maker", .index 5]⟩ ∧
    Query.validate Museum.model Museum.exhibit
      { Query.empty with select := .ofList [⟨[.property "maker", .index 5]⟩] } =
        .error (.closedProperty "Maker" "5") := by
  refine ⟨⟨.ofElements [.entitySet "Exhibit" "Exhibits" none none,
    .entity "Exhibit" (some (.string "o'b")) none (some 0), .property "maker" 1, .custom "5" 2] none
      "http://museum" .v1_1 "/Exhibits('o''b')/maker/5", ?_⟩, ?_, ?_⟩
  · decide +kernel
  · decide +kernel
  · decide +kernel

end SensorQuery
