import SensorQuery.Proofs.Path.Selected
import SensorQuery.Proofs.Query.Expanded
import SensorQuery.Proofs.Query.TopLevel

/-!
# One grammar for both lists of options

The options of a request are cut at every `&` and decoded, and those of an expansion are cut at
every `;` outside quotes and parentheses. Options that can stand in either list (`IsPortable`) are
read alike in both: as the same query, or with the same error.
-/

namespace SensorQuery

open Fallible

namespace Query

/-- The option can stand in either list: it is not cut, and stands for itself. -/
structure IsPortable (s : List Char) : Prop where
  raw : ∀ c ∈ s, c ≠ '&' ∧ c ≠ '%' ∧ c ≠ '+'
  whole : Text.splitTopLevel ';' s = some [s]
  /-- It closes its quotes. -/
  quotes : Even (s.count '\'')

variable {ctx : Context} {s : List Char} {os : List (List Char)}

private theorem isPortable_iff :
    IsPortable s ↔ (s.all fun c ↦ c ≠ '&' && c ≠ '%' && c ≠ '+') = true ∧
    Text.splitTopLevel ';' s = some [s] ∧ Even (s.count '\'') := by
  have hraw : (s.all fun c ↦ c ≠ '&' && c ≠ '%' && c ≠ '+') = true ↔
      ∀ c ∈ s, c ≠ '&' ∧ c ≠ '%' ∧ c ≠ '+' := by
    simp [List.all_eq_true, and_assoc]
  rw [hraw]
  constructor
  · intro h
    exact ⟨h.raw, h.whole, h.quotes⟩
  · rintro ⟨raw, whole, quotes⟩
    exact ⟨raw, whole, quotes⟩

instance : Decidable (IsPortable s) := decidable_of_iff _ isPortable_iff.symm

private theorem IsPortable.sealed (h : IsPortable s) : Text.Sealed (· == ';') s := by
  obtain ⟨-, _, -, hpieces⟩ := Text.walk_of_splitTopLevel h.whole
  obtain ⟨quoted, hwalk, -⟩ := hpieces s List.mem_cons_self
  have hquoted : quoted = false := (Text.even_count_iff_of_walk hwalk).mp h.quotes
  rw [Text.Sealed, hwalk, hquoted]

/-! ### Options that stand for themselves -/

private theorem decode_of_raw (h : ∀ c ∈ s, c ≠ '%' ∧ c ≠ '+') (scope : Scope) :
    scope.decode s = .ok s := by
  cases scope with
  | request => rw [Scope.decode, Text.formDecode?_eq_self h]
  | expansion => rfl

/-- An option that stands for itself is taken apart in the same way in both lists. -/
theorem splitOption_of_raw (h : ∀ c ∈ s, c ≠ '%' ∧ c ≠ '+') (scope : Scope) :
    splitOption scope s = splitOption .expansion s := by
  unfold splitOption
  split
  · rfl
  · next name value hcut =>
    rw [(Text.cutAt?_eq_some hcut).1, List.forall_mem_append, List.forall_mem_cons] at h
    rw [decode_of_raw h.1, decode_of_raw h.2.2]
    rfl

private theorem readItems_of_raw {nested : List Char → Except QueryError Query}
    (h : ∀ o ∈ os, ∀ c ∈ o, c ≠ '%' ∧ c ≠ '+') (scope : Scope) (q : Query) (seen : List String) :
    readItems ctx nested scope q seen os = readItems ctx nested .expansion q seen os := by
  induction os generalizing q seen with
  | nil => rfl
  | cons o os ih =>
    obtain ⟨ho, hos⟩ := List.forall_mem_cons.mp h
    rw [readItems, readItems, splitOption_of_raw ho scope]
    simp only [ih hos]

/-- The same options are read alike in both lists. -/
theorem read_joined (hne : os ≠ []) (h : ∀ o ∈ os, IsPortable o) :
    read ctx .request (joined '&' os) = read ctx .expansion (joined ';' os) := by
  have hrequest : Scope.request.pieces (joined '&' os) = .ok os := by
    rw [Scope.pieces, Text.splitAt_joined hne]
    exact fun o ho hmem ↦ ((h o ho).raw '&' hmem).1 rfl
  have hexpansion : Scope.expansion.pieces (joined ';' os) = .ok os := by
    have hcut := Text.splitTopLevel_joined (by decide) hne fun o ho ↦ (h o ho).sealed
    simp only [Scope.pieces, hcut]
  rw [read_eq, read_eq, hrequest, hexpansion]
  exact readItems_of_raw (fun o ho c hc ↦ ((h o ho).raw c hc).2) .request empty []

/-! ### Options in parentheses -/

/-- Options in parentheses are blank only if there is one, and it is blank. -/
theorem trim_joined_ne_nil (hne : os ≠ []) (hblank : ∀ o, os = [o] → Text.trim o ≠ []) :
    Text.trim (joined ';' os) ≠ [] := by
  cases os with
  | nil => exact absurd rfl hne
  | cons o os =>
    cases os with
    | nil =>
      rw [joined_singleton]
      exact hblank o rfl
    | cons o' os =>
      have hmem : ';' ∈ joined ';' (o :: o' :: os) := by
        rw [joined_cons_cons]
        exact List.mem_append_right o List.mem_cons_self
      exact Text.trim_ne_nil hmem (by decide)

/-- In a request an expansion stands for itself if its options do. -/
theorem isRaw_itemText {name : List Char} (hname : ∀ c ∈ name, RawStep.isNameChar c = true)
    (hos : ∀ o ∈ os, IsPortable o) : IsRaw (itemText name (some (joined ';' os))) := by
  have hchars : ∀ c ∈ itemText name (some (joined ';' os)), c ≠ '&' ∧ c ≠ '%' ∧ c ≠ '+' := by
    intro c hc
    rw [itemText, List.mem_append, List.mem_append, List.mem_cons] at hc
    rcases hc with hc | (rfl | hc) | hc
    · have hc := hname c hc
      refine ⟨?_, ?_, ?_⟩ <;> rintro rfl <;> exact absurd hc (by decide)
    · decide
    · rcases mem_joined hc with rfl | ⟨o, ho, hc⟩
      · decide
      · exact (hos o ho).raw c hc
    · cases List.mem_singleton.mp hc
      decide
  exact ⟨fun hmem ↦ (hchars '&' hmem).1 rfl, Text.formDecode?_eq_self fun c hc ↦ (hchars c hc).2⟩

/-- Options begin with a question mark only if the first of them does. -/
theorem dropWord?_joined (hne : os ≠ []) (hmark : ∀ o ∈ os.head?, o.head? ≠ some '?') :
    dropWord? ['?'] (joined '&' os) = none := by
  apply dropWord?_question
  obtain ⟨o, more, rfl⟩ := List.exists_cons_of_ne_nil hne
  have hfirst := hmark o rfl
  rw [joined_cons]
  cases o with
  | cons c o => exact hfirst
  | nil => cases more <;> simp

end Query

/-- A name of links that begins with a letter is a path of its own. -/
theorem PropertyPath.parse_navigation {ctx : Context} {name : String}
    (hlink : ctx.model.isNavigationName name = true)
    (hletter : ∃ c ∈ name.toList.head?, Text.isAlphabetic c = true)
    (hname : ∀ c ∈ name.toList, RawStep.isNameChar c = true) :
    parse ctx (String.ofList name.toList) = .ok ⟨[.navigation name]⟩ := by
  have hfirst : RawStep.IsFirst name.toList := RawStep.isFirst_of_letter hletter
  obtain ⟨_, hhead, -⟩ := hletter
  have hne : name.toList ≠ [] := List.ne_nil_of_mem (List.mem_of_mem_head? hhead)
  let first : WrittenStep := ⟨name.toList, [], [], .inr ⟨hne, hname⟩, .nil⟩
  have hsorted : classify ctx .entity (([first] : List WrittenStep).flatMap WrittenStep.raws) =
      .ok [.navigation name] := by
    have hraws : ([first] : List WrittenStep).flatMap WrittenStep.raws = [.name name] := by
      simp [first, WrittenStep.raws, ofName_of_isFirst hfirst]
    have hstep : classifyStep ctx .entity (.name name) = .ok (.navigation name, .entity) :=
      classifyStep_eq_ok_iff.mpr (.navigation (RawStep.ne_keyAlias hname) hlink)
    rw [hraws]
    exact classify_of_step hstep rfl
  have hparse := parse_texts (show RawStep.IsFirst first.name from hfirst) [] hsorted
  simpa [first, WrittenStep.text, WrittenStep.texts] using hparse

namespace Query

-- A request that is one expansion with options is read as the options in its parentheses are.
private theorem parse_expandOption {ctx : Context} {name inner : List Char} {p : PropertyPath}
    (htrim : Text.trim name = name) (hp : PropertyPath.parse ctx (String.ofList name) = .ok p)
    (hraw : IsRaw (itemText name (some inner))) (hinner : Text.Balanced inner)
    (hblank : Text.trim inner ≠ []) :
    parse ctx (String.ofList (expandOption (itemText name (some inner)))) =
      read ctx .expansion inner >>= fun q ↦
        .ok { empty with expand := [nestExpand p.hops (some q)] } := by
  have hedged := edged_itemText (isItem_of_parse htrim hp).1.edged (some inner)
  have hvalue : IsValue .request (itemText name (some inner)) := ⟨hedged, by rintro ⟨⟩⟩
  have hmark : dropWord? ['?'] (expandOption (itemText name (some inner))) = none :=
    dropWord?_question (by simp [expandOption, optionText])
  have hnested : parseNested (read ctx .expansion) (some inner) =
      read ctx .expansion inner >>= fun q ↦ .ok (some q) := by
    rw [parseNested, if_neg (by simpa using hblank)]
    rfl
  have hitem : expansions ctx (itemText name (some inner)) =
      parseNested (read ctx .expansion) (some inner) >>= fun query ↦
        .ok [nestExpand p.hops query] :=
    expansions_itemText htrim hp (by rintro _ ⟨⟩; exact hinner)
  rw [parse_eq_read, String.toList_ofList, hmark, Option.getD_none,
    read_expandOption hvalue fun _ ↦ hraw, hitem, hnested]
  cases read ctx .expansion inner <;> rfl

end Query

/-- A list of options that can stand in either list, in the parentheses of one expansion in a
request, is read as the options of the request are: it gives the query that these give, as that of
the expansion, or fails with their error. -/
theorem nested_options_read_as_root_options (ctx : Context) (name : String)
    (hlink : ctx.model.isNavigationName name = true)
    (hletter : ∃ c ∈ name.toList.head?, Text.isAlphabetic c = true)
    (hname : ∀ c ∈ name.toList, RawStep.isNameChar c = true) (os : List (List Char)) (hne : os ≠ [])
    (hblank : ∀ o, os = [o] → Text.trim o ≠ []) (hmark : ∀ o ∈ os.head?, o.head? ≠ some '?')
    (hos : ∀ o ∈ os, Query.IsPortable o) :
    Query.parse ctx (String.ofList
        ("$expand=".toList ++ name.toList ++ '(' :: Query.joined ';' os ++ [')'])) =
      (Query.parse ctx (String.ofList (Query.joined '&' os))).map fun q ↦
        { Query.empty with expand := [⟨⟨[.navigation name]⟩, some q⟩] } := by
  have hp := PropertyPath.parse_navigation hlink hletter hname
  obtain ⟨_, hhead, -⟩ := hletter
  have hnameItem : IsItem name.toList :=
    isItem_of_plain (List.ne_nil_of_mem (List.mem_of_mem_head? hhead))
      fun c hc ↦ isPlainChar_of_isNameChar (hname c hc)
  have hinner : Text.Balanced (Query.joined ';' os) :=
    Text.walk_joined (by decide) (.inl rfl) fun o ho ↦ (hos o ho).sealed.balanced
  have htext : "$expand=".toList ++ name.toList ++ '(' :: Query.joined ';' os ++ [')'] =
      Query.expandOption (Query.itemText name.toList (some (Query.joined ';' os))) := by
    simp [Query.expandOption, Query.optionText, Query.itemText]
  rw [htext, Query.parse_expandOption hnameItem.edged.trim hp (Query.isRaw_itemText hname hos)
    hinner (Query.trim_joined_ne_nil hne hblank), Query.parse_eq_read, String.toList_ofList,
    Query.dropWord?_joined hne hmark, Option.getD_none, Query.read_joined hne hos]
  cases Query.read ctx .expansion (Query.joined ';' os) <;> rfl

/-- What `$filter=notes eq 'a;b'&$expand=room($top=5;$skip=1)` is read as. -/
def Museum.notesWithRoom : Query :=
  { Query.empty with
    filter := some (.binary .equal (.path ⟨[.property "notes"]⟩) (.constant (.string "a;b")))
    expand := [⟨⟨[.navigation "room"]⟩, some { Query.empty with top := some 5, skip := some 1 }⟩] }

/-- The theorem at options with a semicolon in quotes and in parentheses. -/
theorem museum_nested_options_read_as_root_options :
    Query.parse Museum.context
        "$expand=exhibits($filter=notes eq 'a;b';$expand=room($top=5;$skip=1))" =
      .ok { Query.empty with
        expand := [⟨⟨[.navigation "exhibits"]⟩, some Museum.notesWithRoom⟩] } := by
  have hroot : Query.parse Museum.context "$filter=notes eq 'a;b'&$expand=room($top=5;$skip=1)" =
      .ok Museum.notesWithRoom := by decide +kernel
  have hoptions : ∀ o ∈ ["$filter=notes eq 'a;b'".toList, "$expand=room($top=5;$skip=1)".toList],
      Query.IsPortable o :=
    List.forall_mem_cons.mpr ⟨by decide, List.forall_mem_singleton.mpr (by decide)⟩
  have hread := nested_options_read_as_root_options Museum.context "exhibits" (by decide)
    ⟨'e', rfl, by decide⟩ (List.all_eq_true.mp (by decide)) _ (by simp) (by simp)
    (by rintro _ ⟨⟩; decide) hoptions
  exact hread.trans (congrArg _ hroot)

end SensorQuery
