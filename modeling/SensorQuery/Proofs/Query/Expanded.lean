import SensorQuery.Proofs.Query.Depth
import SensorQuery.Proofs.Query.Restored

/-!
# Expansions that stand alone

An option that stands alone in its list is set in the query without options. An expansion that
stands alone in its value is read from its path and from the options in its parentheses, which close
what they open.
-/

namespace SensorQuery.Query

open Fallible

variable {ctx : Context} {scope : Scope}

/-! ### One option -/

/-- Reading a list of one option comes down to setting it. -/
theorem read_optionText {o : String × List Char} (hname : o.1 ∈ optionNames)
    (hvalue : IsValue scope o.2) (hraw : scope = .request → IsRaw o.2) :
    read ctx scope (optionText o) = setOption ctx (read ctx .expansion) empty o.1 o.2 := by
  have hpieces : scope.pieces (joined scope.separator ([o].map optionText)) =
      .ok ([o].map optionText) :=
    pieces_joined (List.cons_ne_nil o []) (List.forall_mem_singleton.mpr hname)
      (List.forall_mem_singleton.mpr hvalue)
      fun hscope ↦ List.forall_mem_singleton.mpr (hraw hscope)
  rw [List.map_singleton, joined_singleton] at hpieces
  have hsplits : Splits scope (optionText o) o := splits_of_isValue hname hvalue hraw
  have hread : readItems ctx (read ctx .expansion) scope empty [] ([o].map optionText) =
      [o].foldlM (fun q o ↦ setOption ctx (read ctx .expansion) q o.1 o.2) empty :=
    readItems_eq (List.forall_mem_singleton.mpr hsplits) (List.nodup_singleton o.1)
      (fun _ _ ↦ List.not_mem_nil) empty
  rw [read_eq, hpieces, ok_bind, ← List.map_singleton, hread, List.foldlM_cons]
  cases setOption ctx (read ctx .expansion) empty o.1 o.2 <;> rfl

/-- The option as it is written that expands what the value says. -/
def expandOption (value : List Char) : List Char := optionText ("$expand", value)

/-- The one option that expands is read as the list of expansions that it holds. -/
theorem read_expandOption {value : List Char} (hvalue : IsValue scope value)
    (hraw : scope = .request → IsRaw value) : read ctx scope (expandOption value) =
      expansions ctx value >>= fun es ↦ .ok { empty with expand := es } := by
  rw [expandOption, read_optionText (o := ("$expand", value))
    (show "$expand" ∈ optionNames by decide) hvalue hraw]
  rfl

/-- An option that expands one item is cut nowhere, and is not blank. -/
theorem isItem_expandOption {item : List Char} (h : IsItem item) :
    Text.Edged (expandOption item) ∧ Text.Balanced (expandOption item) := by
  have hname : ("$expand", item).1 ∈ optionNames := show "$expand" ∈ optionNames by decide
  refine ⟨(isName_of_mem hname).edged.around ['='] h.edged, ?_⟩
  exact (sealed_optionText hname (h.sealed_at rfl)).balanced

/-- In parentheses, an option that expands one item is read as a query that only expands. -/
theorem parseNested_expandOption {item : List Char} {es : List (Expand Query)} (h : IsItem item)
    (hread : expansions ctx item = .ok es) :
    parseNested (read ctx .expansion) (some (expandOption item)) =
      .ok (some { empty with expand := es }) := by
  have hedged := (isItem_expandOption h).1
  have hvalue : IsValue .expansion item := isValue_of_isItem h
  rw [parseNested, hedged.trim, if_neg (by simpa using hedged.ne_nil),
    read_expandOption hvalue (by rintro ⟨⟩), hread]
  rfl

/-! ### One expansion -/

/-- An expansion as a value writes it: its path, and options in parentheses if there are any. -/
def itemText (path : List Char) : Option (List Char) → List Char
  | none => path
  | some inner => path ++ ('(' :: inner ++ [')'])

variable {path inner : List Char} {p : PropertyPath}

/-- An expansion has no blanks at its ends if its path has none. -/
theorem edged_itemText (hpath : Text.Edged path) (inner : Option (List Char)) :
    Text.Edged (itemText path inner) := by
  cases inner with
  | none => exact hpath
  | some inner =>
    have hclose : Text.Edged [')'] := by
      refine ⟨List.cons_ne_nil _ _, ?_, ?_⟩ <;> rintro c ⟨⟩ <;> decide
    exact hpath.around ('(' :: inner) hclose

/-- An expansion is an item of a list if its options close what they open. -/
theorem isItem_itemText (hpath : IsItem path) {inner : Option (List Char)}
    (hinner : ∀ s ∈ inner, Text.Balanced s) : IsItem (itemText path inner) := by
  cases inner with
  | none => exact hpath
  | some inner =>
    exact hpath.append (isItem_parens ((hinner inner rfl).walk (.inl Nat.one_ne_zero)))

/-- A path without blanks around it can be an item of any list, and has no parenthesis. -/
theorem isItem_of_parse (htrim : Text.trim path = path)
    (hp : PropertyPath.parse ctx (String.ofList path) = .ok p) : IsItem path ∧ '(' ∉ path := by
  have hedged : Text.Edged path := by
    rw [← htrim]
    apply Text.edged_trim
    rw [htrim]
    rintro rfl
    cases hp
  constructor
  · rw [← Text.trimEnd_eq_self hedged.back] at hp
    exact ⟨hedged, sealed_of_parse hp⟩
  · intro hopen
    rcases PropertyPath.isPathChar_of_parse hp '(' (by rwa [String.toList_ofList]) with hc | hc <;>
      exact absurd hc (by decide)

/-- What is read from an expansion: the hops of its path, with what is read from its options. -/
theorem parseExpandItem_itemText {nested : List Char → Except QueryError Query}
    (htrim : Text.trim path = path) (hp : PropertyPath.parse ctx (String.ofList path) = .ok p)
    (inner : Option (List Char)) : parseExpandItem ctx nested (itemText path inner) =
      parseNested nested inner >>= fun query ↦ .ok (nestExpand p.hops query) := by
  obtain ⟨hitem, hopen⟩ := isItem_of_parse htrim hp
  have hsplit : splitExpandItem (itemText path inner) = .ok (path, inner) := by
    cases inner with
    | none => exact splitExpandItem_path hopen
    | some inner => exact splitExpandItem_parens hopen hitem.edged inner
  rw [parseExpandItem, parseItem_of_edged (edged_itemText hitem.edged inner), ok_bind, hsplit]
  simp only [ok_bind, hp, inOption]
  rfl

/-- An expansion stands alone in a value if its options close what they open. -/
theorem expansions_itemText (htrim : Text.trim path = path)
    (hp : PropertyPath.parse ctx (String.ofList path) = .ok p) {inner : Option (List Char)}
    (hinner : ∀ s ∈ inner, Text.Balanced s) : expansions ctx (itemText path inner) =
      parseNested (read ctx .expansion) inner >>= fun query ↦ .ok [nestExpand p.hops query] := by
  have hitem := isItem_itemText (isItem_of_parse htrim hp).1 hinner
  have hitems := items_joined (List.cons_ne_nil _ []) (List.forall_mem_singleton.mpr hitem)
  rw [joined_singleton] at hitems
  rw [expansions, parseExpand, hitems, ok_bind, List.mapM_cons, parseExpandItem_itemText htrim hp]
  cases parseNested (read ctx .expansion) inner <;> rfl

/-- If a value is read as one expansion, what stands in its parentheses closes what it opens: the
value is not cut, and ends outside of parentheses. -/
theorem balanced_of_expansions (htrim : Text.trim path = path)
    (hp : PropertyPath.parse ctx (String.ofList path) = .ok p) {x : Expand Query}
    (h : expansions ctx (itemText path (some inner)) = .ok [x]) : Text.Balanced inner := by
  obtain ⟨hitem, hopen⟩ := isItem_of_parse htrim hp
  obtain ⟨parts, hparts, h⟩ := bind_eq_ok.mp h
  obtain ⟨item, rfl, hread⟩ := exists_of_mapM_singleton h
  have hcut := items_eq_ok.mp hparts
  obtain rfl : item = itemText path (some inner) := by
    rw [← joined_singleton ',' item]
    exact Text.joined_of_splitTopLevel hcut
  obtain ⟨-, _, -, hpieces⟩ := Text.walk_of_splitTopLevel hcut
  obtain ⟨b, hwalk, -⟩ := hpieces _ List.mem_cons_self
  rw [parseExpandItem_itemText htrim hp] at hread
  obtain ⟨query, hquery, -⟩ := bind_eq_ok.mp hread
  rw [parseNested] at hquery
  split at hquery
  · next hblank =>
    obtain ⟨front, back, htext, hfront, hback⟩ := Text.exists_trim inner
    rw [List.isEmpty_iff.mp hblank, List.append_nil] at htext
    rw [htext]
    exact Text.walk_blank (List.forall_mem_append.mpr ⟨hfront, hback⟩) _
  · obtain ⟨q, hq, -⟩ := bind_eq_ok.mp hquery
    obtain ⟨b', hinner⟩ := exists_walk_of_parseOptions hq
    have htext : itemText path (some inner) = [] ++ (path ++ '(' :: (inner ++ [')'])) ++ [] := by
      rw [itemText, List.nil_append, List.append_nil, List.cons_append]
    have hfalse : b' = false :=
      walk_inner hwalk htext (List.forall_mem_nil _) (List.forall_mem_nil _) hitem.sealed hinner
    rw [Text.Balanced, Text.Sealed, hinner, hfalse]

end SensorQuery.Query
