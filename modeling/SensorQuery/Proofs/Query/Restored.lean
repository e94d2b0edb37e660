import SensorQuery.Proofs.Query.Depth

/-!
# Queries read back

The text of a query is read option by option. Options of a request are cut at every `&` and
form-decoded before they are read, but they are written as they are, so the query comes back only
if no value has an `&` and decoding changes none. Of the queries of its expansions, those without
options are not written and do not come back, and a path may only begin as the paths of texts do.
-/

namespace SensorQuery

open Fallible

/-- The character between the options of the scope. -/
def Scope.separator : Scope → Char
  | .request => '&'
  | .expansion => ';'

namespace Query

/-- The options as they are written in the scope. -/
def body (scope : Scope) (q : Query) : List Char :=
  joined scope.separator (q.options.map optionText)

/-- The expansion as a query writes it. -/
def expandText (x : Expand Query) : List Char :=
  match x.query with
  | none => x.path.text
  | some q => x.path.text ++ if q.isEmpty then [] else '(' :: q.body .expansion ++ [')']

private theorem expandTexts_eq (es : List (Expand Query)) : expandTexts es = es.map expandText := by
  induction es with
  | nil => rw [expandTexts, List.map_nil]
  | cons x es ih =>
    obtain ⟨path, query⟩ := x
    cases query with
    | none => rw [expandTexts, ih, List.map_cons, expandText]
    | some q =>
      rw [expandTexts, ih, List.map_cons, expandText]
      rfl

mutual

/-- The query without the queries of its expansions that have no options, at any depth. -/
def pruned : Query → Query
  | ⟨top, skip, count, format, filter, orderBy, select, expand⟩ =>
    ⟨top, skip, count, format, filter, orderBy, select, prunedOf expand⟩

/-- The expansions without the queries that have no options, at any depth. -/
def prunedOf : List (Expand Query) → List (Expand Query)
  | [] => []
  | ⟨path, none⟩ :: es => ⟨path, none⟩ :: prunedOf es
  | ⟨path, some q⟩ :: es => ⟨path, if q.isEmpty then none else some q.pruned⟩ :: prunedOf es

end

/-- The expansion with its query pruned, or without it if it has no options. -/
def prunedExpand (x : Expand Query) : Expand Query :=
  ⟨x.path, x.query.bind fun q ↦ if q.isEmpty then none else some q.pruned⟩

private theorem prunedOf_eq (es : List (Expand Query)) : prunedOf es = es.map prunedExpand := by
  induction es with
  | nil => rw [prunedOf, List.map_nil]
  | cons x es ih =>
    obtain ⟨path, query⟩ := x
    cases query with
    | none =>
      rw [prunedOf, ih]
      rfl
    | some q =>
      rw [prunedOf, ih]
      rfl

/-- Without empty expansions, a query is the same but for its expansions. -/
theorem pruned_eq (q : Query) : q.pruned = { q with expand := q.expand.map prunedExpand } := by
  obtain ⟨top, skip, count, format, filter, orderBy, select, expand⟩ := q
  rw [pruned, prunedOf_eq]

variable {ctx : Context} {scope : Scope} {q : Query}

/-! ### How options look from outside -/

/-- The names of options, in the order they are written. -/
def optionNames : List String :=
  ["$select", "$expand", "$filter", "$orderby", "$top", "$skip", "$count", "$resultFormat"]

/-- The options of a query are written in a fixed order, each at most once. -/
theorem names_sublist (q : Query) : List.Sublist (q.options.map (·.1)) optionNames := by
  have hite {c : Prop} [Decidable c] {n : String} {v : List Char} :
      List.Sublist ((if c then [] else [(n, v)]).map (·.1)) [n] := by
    split <;> simp
  have hmap {α : Type} {o : Option α} {n : String} {f : α → List Char} :
      List.Sublist ((o.map fun a ↦ (n, f a)).toList.map (·.1)) [n] := by
    cases o <;> simp
  obtain ⟨top, skip, count, format, filter, orderBy, select, expand⟩ := q
  unfold options
  simp only [List.map_append]
  exact ((((((hite.append hite).append hmap).append hite).append hmap).append hmap).append
    hmap).append hmap

/-- An item is a value. -/
theorem isValue_of_isItem {s : List Char} (h : IsItem s) : IsValue scope s :=
  ⟨h.edged, fun _ ↦ h.sealed_at rfl⟩

private theorem isValue_joined {texts : List (List Char)} (hne : texts ≠ [])
    (h : ∀ s ∈ texts, IsItem s) : IsValue scope (joined ',' texts) :=
  ⟨Text.edged_joined hne fun s hs ↦ (h s hs).edged, fun _ ↦
    Text.walk_joined (by decide) (.inl rfl) fun s hs ↦ (h s hs).sealed_at rfl⟩

private theorem isItem_digits (n : Nat) : IsItem (Nat.toDigits 10 n) :=
  isItem_of_plain Nat.toDigits_ne_nil fun c hc ↦
    isPlainChar_of_isNameChar (RawStep.isNameChar_of_isDigit c (Numeral.isDigit_toDigits n c hc))

/-- The selected paths as an option writes them. -/
def selectText (s : Select) : List Char :=
  (if s.distinct then "distinct:".toList else []) ++ joined ',' (s.paths.map PropertyPath.text)

private theorem options_eq (q : Query) : q.options =
    (if q.select.paths.isEmpty then [] else [("$select", selectText q.select)]) ++
    (if q.expand.isEmpty then [] else [("$expand", joined ',' (q.expand.map expandText))]) ++
    (q.filter.map fun e ↦ ("$filter", e.text)).toList ++
    (if q.orderBy.isEmpty then [] else [("$orderby", joined ',' (q.orderBy.map Order.text))]) ++
    (q.top.map fun n ↦ ("$top", Nat.toDigits 10 n.toNat)).toList ++
    (q.skip.map fun n ↦ ("$skip", Nat.toDigits 10 n.toNat)).toList ++
    (q.count.map fun b ↦ ("$count", (Literal.boolean b).text)).toList ++
    (q.resultFormat.map fun f ↦ ("$resultFormat", f.toList)).toList := by
  obtain ⟨top, skip, count, format, filter, orderBy, select, expand⟩ := q
  rw [options, expandTexts_eq]
  rfl

private theorem isValue_selectText {s : Select} (h : s.Formed ctx) (hne : s.paths ≠ []) :
    IsValue scope (selectText s) := by
  have hpaths : IsValue scope (joined ',' (s.paths.map PropertyPath.text)) := by
    refine isValue_joined (by simpa using hne) (List.forall_mem_map.mpr fun p hp ↦ ?_)
    obtain ⟨w, more, hformed⟩ := h.paths p hp
    exact hformed.isItem_text
  unfold selectText
  split
  · have hword : Text.Edged "distinct:".toList := by
      refine ⟨by decide, ?_, ?_⟩ <;> rintro c ⟨⟩ <;> decide
    have hsealed : Text.Sealed (· == ';') "distinct:".toList := rfl
    exact ⟨hword.around [] hpaths.edged, fun hscope ↦ hsealed.append (hpaths.sealed hscope)⟩
  · exact hpaths

/-- A name and a value with an equals sign between them are cut nowhere in an expansion. -/
theorem sealed_optionText {o : String × List Char} (hname : o.1 ∈ optionNames)
    (hvalue : Text.Sealed (· == ';') o.2) : Text.Sealed (· == ';') (optionText o) := by
  have hnames : (optionNames.all fun n ↦
      n.toList.all fun c ↦ Text.isBare c && !(c == ';')) = true := by decide
  have hsealed : Text.Sealed (· == ';') o.1.toList := Text.sealed_of_bare fun c hc ↦ by
    simpa using List.all_eq_true.mp (List.all_eq_true.mp hnames o.1 hname) c hc
  exact hsealed.append hvalue

/-- The options of a query have the names of options. -/
theorem mem_optionNames {o : String × List Char} (ho : o ∈ q.options) : o.1 ∈ optionNames :=
  (names_sublist q).mem (List.mem_map_of_mem ho)

private theorem isItem_expandText {x : Expand Query} (hpath : x.path.IsHop ctx)
    (hquery : ∀ q ∈ x.query, ∀ o ∈ q.options, Text.Sealed (· == ';') o.2) :
    IsItem (expandText x) := by
  obtain ⟨w, more, hsorted⟩ := hpath.exists_sorted
  unfold expandText
  split
  · exact hsorted.isItem_text
  · next q hq =>
    split
    · rw [List.append_nil]
      exact hsorted.isItem_text
    · refine hsorted.isItem_text.append (isItem_parens ?_)
      refine Text.walk_joined (by decide) (.inr Nat.one_ne_zero) (List.forall_mem_map.mpr ?_)
      intro o ho
      have hsealed := sealed_optionText (mem_optionNames ho) (hquery q hq o ho)
      exact hsealed.walk (.inl Nat.one_ne_zero)

/-- Each value that a query writes can be the value of an option. -/
theorem Formed.isValue (h : q.Formed ctx Duration.IsPlain scope) :
    ∀ o ∈ q.options, IsValue scope o.2 := by
  induction h with
  | @intro scope q filter orders select format hops _ ih =>
    intro o ho
    rw [options_eq] at ho
    simp only [List.mem_append, List.mem_ite_nil_left, List.mem_singleton, Option.mem_toList,
      Option.map_eq_some_iff, Bool.not_eq_true, List.isEmpty_eq_false_iff] at ho
    rcases ho with ((((((⟨hne, rfl⟩ | ⟨hne, rfl⟩) | ⟨e, he, rfl⟩) | ⟨hne, rfl⟩) | ⟨n, -, rfl⟩) |
      ⟨n, -, rfl⟩) | ⟨b, -, rfl⟩) | ⟨f, hf, rfl⟩
    · exact isValue_selectText select hne
    · refine isValue_joined (by simpa using hne) (List.forall_mem_map.mpr fun x hx ↦ ?_)
      exact isItem_expandText (hops x hx) fun q' hq' o ho ↦ (ih x hx q' hq' o ho).sealed rfl
    · exact isValue_of_isItem (Expression.isItem_text (filter e he))
    · refine isValue_joined (by simpa using hne) (List.forall_mem_map.mpr fun o ho ↦ ?_)
      exact Order.isItem_text (orders o ho)
    · exact isValue_of_isItem (isItem_digits _)
    · exact isValue_of_isItem (isItem_digits _)
    · exact isValue_of_isItem (isItem_of_plain (by cases b <;> decide)
        (List.all_eq_true.mp (by cases b <;> decide)))
    · exact format f hf

/-! ### Cutting a text into its options -/

/-- A form-encoded request carries the text as it is: it is not cut, and decoded as itself. -/
structure IsRaw (v : List Char) : Prop where
  uncut : '&' ∉ v
  decoded : Text.formDecode? v = some v

/-- What the names of options have. -/
structure IsName (n : String) : Prop where
  noEquals : '=' ∉ n.toList
  raw : IsRaw n.toList
  edged : Text.Edged n.toList

/-- The names of options are names. -/
theorem isName_of_mem {n : String} (h : n ∈ optionNames) : IsName n := by
  have hchars : (optionNames.all fun n ↦
      n.toList.all fun c ↦ c ≠ '=' && c ≠ '&' && c ≠ '%' && c ≠ '+' && !Text.isBlank c) = true := by
    decide
  have hne : (optionNames.all fun n ↦ n.toList ≠ []) = true := by decide
  have hall : ∀ c ∈ n.toList,
      (((c ≠ '=' ∧ c ≠ '&') ∧ c ≠ '%') ∧ c ≠ '+') ∧ Text.isBlank c = false := fun c hc ↦ by
    simpa using List.all_eq_true.mp (List.all_eq_true.mp hchars n h) c hc
  refine ⟨fun hmem ↦ (hall _ hmem).1.1.1.1 rfl, ⟨fun hmem ↦ (hall _ hmem).1.1.1.2 rfl, ?_⟩,
    ⟨by simpa using List.all_eq_true.mp hne n h, ?_, ?_⟩⟩
  · exact Text.formDecode?_eq_self fun c hc ↦ ⟨(hall c hc).1.1.2, (hall c hc).1.2⟩
  · exact fun c hc ↦ (hall c (List.mem_of_mem_head? hc)).2
  · exact fun c hc ↦ (hall c (List.mem_of_getLast? hc)).2

/-- The item is taken apart into the name and the value of the option. -/
structure Splits (scope : Scope) (item : List Char) (o : String × List Char) : Prop where
  split : splitOption scope item = .ok o
  notBlank : (Text.trim item).isEmpty = false

private theorem decode_eq_ok {s : List Char} (h : scope = .request → IsRaw s) :
    scope.decode s = .ok s := by
  cases scope with
  | request => rw [Scope.decode, (h rfl).decoded]
  | expansion => rfl

/-- An option is split at the sign behind its name. -/
theorem splits_of_isValue {o : String × List Char} (hname : o.1 ∈ optionNames)
    (hvalue : IsValue scope o.2) (hraw : scope = .request → IsRaw o.2) :
    Splits scope (optionText o) o := by
  obtain ⟨n, v⟩ := o
  have hn := isName_of_mem hname
  constructor
  · unfold splitOption optionText
    simp only [Text.cutAt?_append hn.noEquals]
    rw [decode_eq_ok fun _ ↦ hn.raw, ok_bind, decode_eq_ok hraw, ok_bind, hn.edged.trim,
      hvalue.edged.trim, String.ofList_toList]
    rfl
  · have htrim : Text.trim (optionText (n, v)) = optionText (n, v) :=
      (hn.edged.around ['='] hvalue.edged).trim
    rw [htrim]
    simp [optionText]

private theorem not_mem_optionText {o : String × List Char} (hname : o.1 ∈ optionNames)
    (hraw : IsRaw o.2) : '&' ∉ optionText o := by
  intro hmem
  rcases List.mem_append.mp hmem with hmem | hmem
  · exact (isName_of_mem hname).raw.uncut hmem
  · rcases List.mem_cons.mp hmem with heq | hmem
    · exact absurd heq (by decide)
    · exact hraw.uncut hmem

/-- Options are the pieces of the list that they are written as. -/
theorem pieces_joined {opts : List (String × List Char)} (hne : opts ≠ [])
    (hnames : ∀ o ∈ opts, o.1 ∈ optionNames) (hvalues : ∀ o ∈ opts, IsValue scope o.2)
    (hraw : scope = .request → ∀ o ∈ opts, IsRaw o.2) :
    scope.pieces (joined scope.separator (opts.map optionText)) = .ok (opts.map optionText) := by
  have htexts : opts.map optionText ≠ [] := by simpa using hne
  cases scope with
  | request =>
    exact congrArg _ (Text.splitAt_joined htexts (List.forall_mem_map.mpr fun o ho ↦
      not_mem_optionText (hnames o ho) (hraw rfl o ho)))
  | expansion =>
    have hsealed : ∀ s ∈ opts.map optionText, Text.Sealed (· == ';') s :=
      List.forall_mem_map.mpr fun o ho ↦ sealed_optionText (hnames o ho) ((hvalues o ho).sealed rfl)
    rw [Scope.pieces]
    simp only [Scope.separator, Text.splitTopLevel_joined (by decide) htexts hsealed]

private theorem pieces_body (hvalues : ∀ o ∈ q.options, IsValue scope o.2)
    (hraw : scope = .request → ∀ o ∈ q.options, IsRaw o.2) :
    scope.pieces (q.body scope) =
      .ok (if q.options = [] then [[]] else q.options.map optionText) := by
  split
  · next hnil =>
    rw [body, hnil]
    cases scope <;> rfl
  · next hne => exact pieces_joined hne (fun o ho ↦ mem_optionNames ho) hvalues hraw

variable {nested : List Char → Except QueryError Query}

/-- Different options that are taken apart are set one after the other. -/
theorem readItems_eq {opts : List (String × List Char)}
    {written : String × List Char → List Char} (h : ∀ o ∈ opts, Splits scope (written o) o)
    (hnodup : (opts.map (·.1)).Nodup) {seen : List String} (hseen : ∀ o ∈ opts, o.1 ∉ seen)
    (q : Query) : readItems ctx nested scope q seen (opts.map written) =
      opts.foldlM (fun q o ↦ setOption ctx nested q o.1 o.2) q := by
  induction opts generalizing q seen with
  | nil => rfl
  | cons o opts ih =>
    obtain ⟨ho, hopts⟩ := List.forall_mem_cons.mp h
    obtain ⟨hnew, hnew'⟩ := List.forall_mem_cons.mp hseen
    obtain ⟨hmem, hnodup⟩ := List.nodup_cons.mp hnodup
    rw [List.map_cons, readItems, ho.notBlank, if_neg Bool.false_ne_true, ho.split, ok_bind,
      List.foldlM_cons]
    simp only [List.contains_iff_mem, hnew, ite_false]
    refine congrArg _ (funext fun q' ↦ ih hopts hnodup ?_ q')
    intro o' ho' hmem'
    rcases List.mem_cons.mp hmem' with heq | hold
    · exact hmem (List.mem_map.mpr ⟨o', ho', heq⟩)
    · exact hnew' o' ho' hold

/-! ### Setting the options -/

/-- Items that are joined by commas are cut at these. -/
theorem items_joined {texts : List (List Char)} (hne : texts ≠ [])
    (h : ∀ s ∈ texts, IsItem s) : items (joined ',' texts) = .ok texts :=
  items_eq_ok.mpr (Text.splitTopLevel_joined (by decide) hne fun s hs ↦ (h s hs).sealed_at rfl)

/-- An item without blanks at its ends is read as it is. -/
theorem parseItem_of_edged {option reason : String} {s : List Char} (h : Text.Edged s) :
    parseItem option reason s = .ok s := by
  rw [parseItem, h.trim]
  simp [h.ne_nil]

private theorem foldlM_selectItem {paths : List PropertyPath}
    (hpaths : ∀ p ∈ paths, ∃ w more, p.Formed ctx w more) {s : Select}
    (hnodup : (s.paths ++ paths).Nodup) :
    (paths.map PropertyPath.text).foldlM (selectItem ctx) s =
      .ok { s with paths := s.paths ++ paths } := by
  induction paths generalizing s with
  | nil =>
    rw [List.append_nil]
    rfl
  | cons p paths ih =>
    obtain ⟨⟨w, more, hp⟩, hpaths⟩ := List.forall_mem_cons.mp hpaths
    have hnew : p ∉ s.paths := fun hmem ↦
      (List.nodup_append.mp hnodup).2.2 p hmem p List.mem_cons_self rfl
    have hinsert : (s.insert p).1 = { s with paths := s.paths ++ [p] } := by
      simp [Select.insert, hnew]
    have hitem : selectItem ctx s p.text = .ok { s with paths := s.paths ++ [p] } := by
      rw [selectItem, parseItem_of_edged hp.isItem_text.edged, ok_bind, hp.parse_text,
        inOption, ok_bind, hinsert]
      rfl
    rw [List.map_cons, List.foldlM_cons, hitem, ok_bind, ih hpaths]
    · simp
    · simpa using hnodup

private theorem parseSelect_text {s : Select} (h : s.Formed ctx) (hne : s.paths ≠ []) :
    parseSelect ctx (selectText s) = .ok s := by
  obtain ⟨paths, distinct⟩ := s
  have hitems : items (joined ',' (paths.map PropertyPath.text)) =
      .ok (paths.map PropertyPath.text) := by
    refine items_joined (by simpa using hne) (List.forall_mem_map.mpr fun p hp ↦ ?_)
    obtain ⟨w, more, hformed⟩ := h.paths p hp
    exact hformed.isItem_text
  have hdrop : dropWord? "distinct:".toList (selectText ⟨paths, distinct⟩) =
      if distinct then some (joined ',' (paths.map PropertyPath.text)) else none := by
    cases distinct with
    | true =>
      rw [selectText, if_pos rfl, dropWord?, if_pos (by simp), List.drop_left, if_pos rfl]
    | false =>
      rw [selectText, if_neg Bool.false_ne_true, List.nil_append, dropWord?, if_neg ?_]
      · rfl
      · intro hprefix
        have hcolon := (List.isPrefixOf_iff_prefix.mp hprefix).subset
          (by decide : ':' ∈ "distinct:".toList)
        rcases mem_joined hcolon with heq | ⟨s, hs, hmem⟩
        · exact absurd heq (by decide)
        · obtain ⟨p, hp, rfl⟩ := List.mem_map.mp hs
          obtain ⟨w, more, hformed⟩ := h.paths p hp
          exact absurd (hformed.isPathChar_text _ hmem) (by decide)
  have hrest : (if distinct then some (joined ',' (paths.map PropertyPath.text)) else none).getD
      (selectText ⟨paths, distinct⟩) = joined ',' (paths.map PropertyPath.text) := by
    cases distinct <;> rfl
  unfold parseSelect
  simp only [hdrop, hrest, hitems, ok_bind]
  rw [foldlM_selectItem h.paths (by simpa [Select.empty] using h.nodup)]
  cases distinct <;> rfl

private theorem parseNumber_toDigits (option : String) (n : UInt64) :
    parseNumber option (Nat.toDigits 10 n.toNat) = .ok n := by
  have hdigits : (Nat.toDigits 10 n.toNat).all Char.isDigit = true :=
    List.all_eq_true.mpr (Numeral.isDigit_toDigits _)
  have hne : (Nat.toDigits 10 n.toNat).isEmpty = false :=
    List.isEmpty_eq_false_iff.mpr Nat.toDigits_ne_nil
  rw [parseNumber, hdigits, hne, Numeral.uint64?_toDigits]
  rfl

private theorem parseFlag_text (option : String) (b : Bool) :
    parseFlag option (Literal.boolean b).text = .ok b := by
  cases b <;> rfl

section Setting

variable {top skip : Option UInt64} {count : Option Bool} {format : Option String}
  {filter : Option Expression} {orders : List Order} {select : Select}
  {expand : List (Expand Query)}

private def set (ctx : Context) (nested : List Char → Except QueryError Query) (q : Query)
    (o : String × List Char) : Except QueryError Query := setOption ctx nested q o.1 o.2

private theorem foldlM_singleton {o : String × List Char} {q q' : Query}
    (h : set ctx nested q o = .ok q') : [o].foldlM (set ctx nested) q = .ok q' := by
  rw [List.foldlM_cons, h, ok_bind, List.foldlM_nil]
  rfl

private theorem set_select (h : select.Formed ctx) :
    (if select.paths.isEmpty then [] else [("$select", selectText select)]).foldlM (set ctx nested)
      ⟨top, skip, count, format, filter, orders, .empty, expand⟩ =
        .ok ⟨top, skip, count, format, filter, orders, select, expand⟩ := by
  split
  · next hnil =>
    obtain ⟨paths, distinct⟩ := select
    obtain rfl : paths = [] := List.isEmpty_iff.mp hnil
    obtain rfl : distinct = false := h.distinct rfl
    rfl
  · next hne =>
    apply foldlM_singleton
    simp [set, setOption, parseSelect_text h (by simpa using hne)]

private theorem set_expand (h : ∀ x ∈ expand, IsItem (expandText x)) :
    (if expand.isEmpty then [] else [("$expand", joined ',' (expand.map expandText))]).foldlM
      (set ctx nested) ⟨top, skip, count, format, filter, orders, select, []⟩ =
        (expand.map expandText).mapM (parseExpandItem ctx nested) >>= fun es ↦
          .ok ⟨top, skip, count, format, filter, orders, select, es⟩ := by
  split
  · next hnil =>
    obtain rfl := List.isEmpty_iff.mp hnil
    rfl
  · next hne =>
    have hitems : items (joined ',' (expand.map expandText)) = .ok (expand.map expandText) :=
      items_joined (by simpa using hne) (List.forall_mem_map.mpr h)
    rw [List.foldlM_cons]
    simp [set, setOption, parseExpand, hitems, ok_bind]
    rfl

private theorem set_filter (h : ∀ e ∈ filter, e.Formed ctx Duration.IsPlain) :
    (filter.map fun e ↦ ("$filter", e.text)).toList.foldlM (set ctx nested)
      ⟨top, skip, count, format, none, orders, select, expand⟩ =
        .ok ⟨top, skip, count, format, filter, orders, select, expand⟩ := by
  cases filter with
  | none => rfl
  | some e => exact foldlM_singleton (by simp [set, setOption, (h e rfl).parse_text, inOption])

private theorem set_orders (h : ∀ o ∈ orders, o.expression.Formed ctx Duration.IsPlain) :
    (if orders.isEmpty then [] else [("$orderby", joined ',' (orders.map Order.text))]).foldlM
      (set ctx nested) ⟨top, skip, count, format, filter, [], select, expand⟩ =
        .ok ⟨top, skip, count, format, filter, orders, select, expand⟩ := by
  split
  · next hnil =>
    obtain rfl := List.isEmpty_iff.mp hnil
    rfl
  · next hne =>
    apply foldlM_singleton
    simp [set, setOption, Order.parse_joined (by simpa using hne) h, inOption]

private theorem set_top :
    (top.map fun n ↦ ("$top", Nat.toDigits 10 n.toNat)).toList.foldlM (set ctx nested)
      ⟨none, skip, count, format, filter, orders, select, expand⟩ =
        .ok ⟨top, skip, count, format, filter, orders, select, expand⟩ := by
  cases top with
  | none => rfl
  | some n => exact foldlM_singleton (by simp [set, setOption, parseNumber_toDigits])

private theorem set_skip :
    (skip.map fun n ↦ ("$skip", Nat.toDigits 10 n.toNat)).toList.foldlM (set ctx nested)
      ⟨top, none, count, format, filter, orders, select, expand⟩ =
        .ok ⟨top, skip, count, format, filter, orders, select, expand⟩ := by
  cases skip with
  | none => rfl
  | some n => exact foldlM_singleton (by simp [set, setOption, parseNumber_toDigits])

private theorem set_count :
    (count.map fun b ↦ ("$count", (Literal.boolean b).text)).toList.foldlM (set ctx nested)
      ⟨top, skip, none, format, filter, orders, select, expand⟩ =
        .ok ⟨top, skip, count, format, filter, orders, select, expand⟩ := by
  cases count with
  | none => rfl
  | some b => exact foldlM_singleton (by simp [set, setOption, parseFlag_text])

private theorem set_format (h : ∀ f ∈ format, IsValue scope f.toList) :
    (format.map fun f ↦ ("$resultFormat", f.toList)).toList.foldlM (set ctx nested)
      ⟨top, skip, count, none, filter, orders, select, expand⟩ =
        .ok ⟨top, skip, count, format, filter, orders, select, expand⟩ := by
  cases format with
  | none => rfl
  | some f => exact foldlM_singleton (by simp [set, setOption, (h f rfl).edged.ne_nil])

end Setting

private theorem Formed.isItem_expandText (h : q.Formed ctx Duration.IsPlain scope) :
    ∀ x ∈ q.expand, IsItem (expandText x) := by
  obtain ⟨-, -, -, -, hops, queries⟩ := h
  exact fun x hx ↦ Query.isItem_expandText (hops x hx) fun q' hq' o ho ↦
    ((queries x hx q' hq').isValue o ho).sealed rfl

-- The options of a query set its parts one after the other. Only the expansions may fail.
private theorem foldlM_options (h : q.Formed ctx Duration.IsPlain scope) :
    q.options.foldlM (set ctx nested) empty =
      (q.expand.map expandText).mapM (parseExpandItem ctx nested) >>= fun es ↦
        .ok { q with expand := es } := by
  have hitems := h.isItem_expandText
  obtain ⟨filter, orders, select, format, hops, queries⟩ := h
  obtain ⟨top, skip, count, resultFormat, filter', orderBy, select', expand⟩ := q
  rw [options_eq, show (empty : Query) = ⟨none, none, none, none, none, [], .empty, []⟩ from rfl]
  simp only [List.foldlM_append]
  rw [set_select select, ok_bind, set_expand hitems]
  simp only [bind_assoc]
  refine congrArg _ (funext fun es ↦ ?_)
  rw [ok_bind, set_filter filter, ok_bind, set_orders orders, ok_bind, set_top, ok_bind, set_skip,
    ok_bind, set_count, ok_bind, set_format format]

/-- Reading the options of a query comes down to reading its expansions, if each is taken apart into
its name and value. A text without options has one blank piece. -/
theorem Formed.readItems_options (h : q.Formed ctx Duration.IsPlain scope)
    {written : String × List Char → List Char}
    (hsplits : ∀ o ∈ q.options, Splits scope (written o) o) :
    readItems ctx nested scope empty [] (if q.options = [] then [[]] else q.options.map written) =
      (q.expand.map expandText).mapM (parseExpandItem ctx nested) >>= fun es ↦
        .ok { q with expand := es } := by
  have hnodup : (q.options.map (·.1)).Nodup := (names_sublist q).nodup (by decide)
  refine Eq.trans ?_ (foldlM_options h)
  by_cases hnil : q.options = []
  · rw [if_pos hnil, hnil]
    rfl
  · rw [if_neg hnil]
    exact readItems_eq hsplits hnodup (fun o _ ↦ List.not_mem_nil) empty

private theorem read_body_eq (h : q.Formed ctx Duration.IsPlain scope)
    (hraw : scope = .request → ∀ o ∈ q.options, IsRaw o.2) : read ctx scope (q.body scope) =
      (q.expand.map expandText).mapM (parseExpandItem ctx (read ctx .expansion)) >>=
        fun es ↦ .ok { q with expand := es } := by
  rw [read_eq, pieces_body h.isValue hraw, ok_bind]
  exact h.readItems_options fun o ho ↦
    splits_of_isValue (mem_optionNames ho) (h.isValue o ho) fun hscope ↦ hraw hscope o ho

/-! ### Reading expansions -/

private theorem isEmpty_of_options (hselect : q.select.Formed ctx) (h : q.options = []) :
    q.isEmpty = true := by
  obtain ⟨top, skip, count, format, filter, orders, ⟨paths, distinct⟩, expand⟩ := q
  rw [options_eq] at h
  simp only [List.append_eq_nil_iff, ite_eq_left_iff, Option.toList_eq_nil_iff,
    Option.map_eq_none_iff, List.cons_ne_nil, imp_false, Decidable.not_not,
    List.isEmpty_iff] at h
  obtain ⟨⟨⟨⟨⟨⟨⟨rfl, rfl⟩, rfl⟩, rfl⟩, rfl⟩, rfl⟩, rfl⟩, rfl⟩ := h
  obtain rfl : distinct = false := hselect.distinct rfl
  rfl

private theorem edged_body (h : q.Formed ctx Duration.IsPlain scope) (hne : q.isEmpty = false) :
    Text.Edged (q.body scope) := by
  have hoptions : q.options.map optionText ≠ [] := by
    intro hnil
    have hempty := isEmpty_of_options (by cases h; assumption) (List.map_eq_nil_iff.mp hnil)
    rw [hne] at hempty
    cases hempty
  refine Text.edged_joined hoptions (List.forall_mem_map.mpr fun o ho ↦ ?_)
  exact (isName_of_mem (mem_optionNames ho)).edged.around ['='] (h.isValue o ho).edged

/-- An expansion without parentheses is its path. -/
theorem splitExpandItem_path {s : List Char} (h : '(' ∉ s) :
    splitExpandItem s = .ok (s, none) := by
  rw [splitExpandItem, Text.cutAt?_eq_none h]

/-- An expansion is split where its parentheses open. -/
theorem splitExpandItem_parens {s : List Char} (h : '(' ∉ s) (hs : Text.Edged s)
    (inner : List Char) :
    splitExpandItem (s ++ ('(' :: inner ++ [')'])) = .ok (s, some inner) := by
  have hlast : (inner ++ [')']).getLast? = some ')' := List.getLast?_concat
  rw [splitExpandItem, List.cons_append, Text.cutAt?_append h]
  simp only [hlast, ite_true, Text.trimEnd_eq_self hs.back, List.dropLast_concat]

-- What is read for the query of an expansion: nothing if it has no options.
private def readAgain (nested : List Char → Except QueryError Query) :
    Option Query → Except QueryError (Option Query)
  | none => .ok none
  | some q => if q.isEmpty then .ok none else nested (q.body .expansion) >>= (.ok ∘ some)

private theorem parseExpandItem_text (nested : List Char → Except QueryError Query)
    {x : Expand Query} (hpath : x.path.IsHop ctx)
    (hquery : ∀ q ∈ x.query, q.Formed ctx Duration.IsPlain .expansion)
    (hitem : IsItem (expandText x)) : parseExpandItem ctx nested (expandText x) =
      (inOption "$expand" (PropertyPath.parse ctx (String.ofList x.path.text)) >>= fun path ↦
        readAgain nested x.query >>= fun query ↦ .ok (nestExpand path.hops query)) := by
  obtain ⟨path, query⟩ := x
  obtain ⟨w, more, hsorted⟩ := hpath.exists_sorted
  have hopen : '(' ∉ path.text := fun hmem ↦
    absurd (hsorted.isPathChar_text _ hmem) (by decide)
  unfold parseExpandItem
  rw [parseItem_of_edged hitem.edged, ok_bind]
  cases query with
  | none =>
    rw [show expandText ⟨path, none⟩ = path.text from rfl, splitExpandItem_path hopen]
    rfl
  | some q =>
    cases hempty : q.isEmpty with
    | true =>
      have htext : expandText ⟨path, some q⟩ = path.text := by simp [expandText, hempty]
      rw [htext, splitExpandItem_path hopen]
      simp only [readAgain, hempty, ite_true]
      rfl
    | false =>
      have htext :
          expandText ⟨path, some q⟩ = path.text ++ ('(' :: q.body .expansion ++ [')']) := by
        simp [expandText, hempty]
      have hbody : (Text.trim (q.body .expansion)).isEmpty = false := by
        rw [(edged_body (hquery q rfl) hempty).trim]
        exact List.isEmpty_eq_false_iff.mpr (edged_body (hquery q rfl) hempty).ne_nil
      rw [htext, splitExpandItem_parens hopen hsorted.isItem_text.edged]
      simp only [readAgain, hempty, ok_bind, parseNested, hbody, Bool.false_eq_true, ite_false]
      rfl

private theorem forall_expand_iff {R : Expand Query → Prop} :
    (∀ q' ∈ q.all, ∀ x ∈ q'.expand, R x) ↔
      ∀ x ∈ q.expand, R x ∧ ∀ q' ∈ x.query, ∀ q'' ∈ q'.all, ∀ y ∈ q''.expand, R y := by
  rw [forall_all_iff (P := fun q' ↦ ∀ x ∈ q'.expand, R x)]
  exact forall₂_and.symm

/-- Every path of an expansion, at any depth, begins as the paths of texts do. -/
def BeginsFirst (q : Query) : Prop := ∀ q' ∈ q.all, ∀ x ∈ q'.expand, x.path.BeginsFirst

/-- A query begins as names do if its expansions do, at any depth. -/
theorem beginsFirst_iff : q.BeginsFirst ↔
    ∀ x ∈ q.expand, x.path.BeginsFirst ∧ ∀ q' ∈ x.query, q'.BeginsFirst :=
  forall_expand_iff

/-- Every query of an expansion, at any depth, has options. -/
def IsWritten (q : Query) : Prop :=
  ∀ q' ∈ q.all, ∀ x ∈ q'.expand, ∀ q'' ∈ x.query, q''.isEmpty = false

private theorem isWritten_iff : q.IsWritten ↔
    ∀ x ∈ q.expand, (∀ q' ∈ x.query, q'.isEmpty = false) ∧ ∀ q' ∈ x.query, q'.IsWritten :=
  forall_expand_iff

/-- Pruning changes a query unless all queries inside it have options. -/
theorem Formed.pruned_eq_self_iff {P : Duration → Prop} (h : q.Formed ctx P scope) :
    q.pruned = q ↔ q.IsWritten := by
  induction h with
  | @intro scope q _ _ _ _ _ _ ih =>
    have hmap : q.expand.map prunedExpand = q.expand ↔ ∀ x ∈ q.expand, prunedExpand x = x := by
      conv_lhs => rhs; rw [← List.map_id q.expand]
      exact List.map_inj_left
    have hexpand : q.pruned = q ↔ ∀ x ∈ q.expand, prunedExpand x = x := by
      rw [pruned_eq, ← hmap]
      refine ⟨congrArg expand, fun h ↦ ?_⟩
      rw [h]
      cases q
      rfl
    rw [hexpand, isWritten_iff]
    refine forall₂_congr fun x hx ↦ ?_
    obtain ⟨path, query⟩ := x
    cases query with
    | none => simp [prunedExpand]
    | some q' =>
      have hinner : q'.pruned = q' ↔ q'.IsWritten := ih _ hx q' rfl
      cases hempty : q'.isEmpty <;> simp [prunedExpand, hempty, hinner]

private theorem beginsFirst_of_isEmpty (h : q.isEmpty = true) : q.BeginsFirst := by
  rw [beginsFirst_iff]
  simp only [isEmpty, Bool.and_eq_true, List.isEmpty_iff] at h
  rw [h.2]
  exact fun x hx ↦ by cases hx

/-- Expansions that begin as the paths of texts do are read from their texts, if the options in
their parentheses are. -/
theorem Formed.mapM_parseExpandItem (h : q.Formed ctx Duration.IsPlain scope)
    (hfirst : q.BeginsFirst) (hinner : ∀ x ∈ q.expand, ∀ q' ∈ x.query, q'.isEmpty = false →
      nested (q'.body .expansion) = .ok q'.pruned) :
    (q.expand.map expandText).mapM (parseExpandItem ctx nested) =
      .ok (q.expand.map prunedExpand) := by
  have hitems := h.isItem_expandText
  obtain ⟨-, -, -, -, hops, queries⟩ := h
  rw [List.mapM_map]
  refine mapM_eq_ok fun x hx ↦ ?_
  rw [Function.comp_apply, parseExpandItem_text nested (hops x hx) (queries x hx) (hitems x hx),
    (hops x hx).parse_text (beginsFirst_iff.mp hfirst x hx).1, inOption, ok_bind, (hops x hx).hops]
  obtain ⟨path, query⟩ := x
  cases query with
  | none => rfl
  | some q' =>
    cases hempty : q'.isEmpty with
    | true => simp [readAgain, prunedExpand, hempty, ok_bind, nestExpand]
    | false =>
      simp [readAgain, prunedExpand, hempty, hinner _ hx q' rfl hempty, ok_bind, nestExpand]

/-- The text of a query, read in parentheses or as a request that carries it, is read as the query
without the queries that are not written, and only if its paths begin as the paths of texts do: by
induction on how the query nests. -/
theorem Formed.read_body (h : q.Formed ctx Duration.IsPlain scope)
    (hraw : scope = .request → ∀ o ∈ q.options, IsRaw o.2) :
    (q.BeginsFirst → read ctx scope (q.body scope) = .ok q.pruned) ∧
      ∀ q', read ctx scope (q.body scope) = .ok q' → q.BeginsFirst := by
  induction h with
  | @intro scope q filter orders select format hops queries ih =>
    have hformed : q.Formed ctx Duration.IsPlain scope :=
      .intro filter orders select format hops queries
    have hitems := hformed.isItem_expandText
    have hinner {x : Expand Query} (hx : x ∈ q.expand) {q' : Query} (hq' : x.query = some q') :=
      ih x hx q' hq' nofun
    rw [read_body_eq hformed hraw]
    constructor
    · intro hfirst
      have hquery := fun x hx ↦ (beginsFirst_iff.mp hfirst x hx).2
      rw [hformed.mapM_parseExpandItem hfirst fun x hx q' hq' _ ↦
        (hinner hx hq').1 (hquery x hx q' hq'), ok_bind, pruned_eq]
    · intro q' hq'
      rw [beginsFirst_iff]
      intro x hx
      rw [List.mapM_map] at hq'
      obtain ⟨es, hes, -⟩ := bind_eq_ok.mp hq'
      obtain ⟨y, hy⟩ := exists_ok_of_mapM hes x hx
      rw [Function.comp_apply, parseExpandItem_text _ (hops x hx) (queries x hx) (hitems x hx)]
        at hy
      obtain ⟨path, hpath, hy⟩ := bind_eq_ok.mp hy
      obtain ⟨query, hquery, -⟩ := bind_eq_ok.mp hy
      refine ⟨(hops x hx).beginsFirst_of_parse (inOption_eq_ok.mp hpath), ?_⟩
      intro q'' hq''
      rw [show x.query = some q'' from hq'', readAgain] at hquery
      split at hquery
      · next hempty => exact beginsFirst_of_isEmpty hempty
      · obtain ⟨q₀, hq₀, -⟩ := bind_eq_ok.mp hquery
        exact (hinner hx hq'').2 q₀ hq₀

/-- No question mark is dropped where none stands in front. -/
theorem dropWord?_question {s : List Char} (h : s.head? ≠ some '?') :
    dropWord? ['?'] s = none := by
  cases s with
  | nil => rfl
  | cons c s =>
    have hc : ¬ '?' = c := fun hc ↦ h (by rw [hc]; rfl)
    simp [dropWord?, List.isPrefixOf, hc]

/-- A list of options begins with the name of one, and not with a question mark. -/
theorem dropWord?_options (code : List Char → List Char) (q : Query) :
    dropWord? ['?'] (joined '&' (q.options.map fun o ↦ optionText (o.1, code o.2))) = none := by
  apply dropWord?_question
  have hnames : (optionNames.all fun n ↦ n.toList.head? = some '$') = true := by decide
  cases hopts : q.options with
  | nil => exact nofun
  | cons o opts =>
    have hmem : o ∈ q.options := by
      rw [hopts]
      exact List.mem_cons_self
    have hhead : o.1.toList.head? = some '$' := by
      simpa using List.all_eq_true.mp hnames o.1 (mem_optionNames hmem)
    obtain ⟨tail, htail⟩ := List.head?_eq_some_iff.mp hhead
    rw [List.map_cons, joined_cons, optionText, htail, List.cons_append, List.cons_append,
      List.head?_cons]
    decide

/-- A query that could have been read is read from its text as the query without the queries that
are not written, if a request carries the text as it is. -/
theorem Formed.parse_text (h : q.Formed ctx Duration.IsPlain .request)
    (hraw : ∀ o ∈ q.options, IsRaw o.2) :
    (q.BeginsFirst → parse ctx (String.ofList q.text) = .ok q.pruned) ∧
      ∀ q', parse ctx (String.ofList q.text) = .ok q' → q.BeginsFirst := by
  have hmark : dropWord? ['?'] q.text = none := dropWord?_options id q
  have hparse : parse ctx (String.ofList q.text) = read ctx .request (q.body .request) := by
    rw [parse_eq_read, String.toList_ofList, hmark]
    rfl
  rw [hparse]
  exact h.read_body fun _ ↦ hraw

end Query

/-- A query that was read, whose text a request carries as it is, comes back from its text exactly
if its paths begin as the paths of texts do and every query inside it has options. -/
theorem query_reads_back_iff (ctx : Context)
    (hnames : ∀ f ∈ ctx.functions.signatures, f.name ∉ Expression.reservedWords) (t : String)
    (q : Query) (h : Query.parse ctx t = .ok q)
    (hfinite : ∀ q' ∈ q.all, ∀ d ∈ q'.durations, d.seconds.isFinite = true)
    (hraw : ∀ o ∈ q.options, Query.IsRaw o.2) :
    Query.parse ctx (String.ofList q.text) = .ok q ↔ q.BeginsFirst ∧ q.IsWritten := by
  have hformed : q.Formed ctx Duration.IsPlain .request :=
    (Query.formed_of_parse hnames h).imp fun q' hq' d hd hunsigned ↦
      hunsigned.isPlain (hfinite q' hq' d hd)
  obtain ⟨hread, hfirst⟩ := hformed.parse_text hraw
  constructor
  · intro hback
    refine ⟨hfirst q hback, hformed.pruned_eq_self_iff.mp ?_⟩
    rw [hread (hfirst q hback)] at hback
    exact Except.ok.inj hback
  · rintro ⟨hbegins, hwritten⟩
    rw [hread hbegins, hformed.pruned_eq_self_iff.mpr hwritten]

/-- A model of parts that have parts. -/
def partsContext : Context :=
  let part := (EntityType.bare 0 "Part" "Parts" "id" .long).push
    (.navigation ⟨"parts", 0, true, "parts", false⟩)
  ⟨.ofTable (EntityTable.empty.insert part) [] [], ⟨[.ofParameters "now" .temporal [] .temporal]⟩,
    false⟩

/-- What `$expand=parts($top=05)` is read as. -/
def partsQuery : Query :=
  { Query.empty with
    expand := [⟨⟨[.navigation "parts"]⟩, some { Query.empty with top := some 5 }⟩] }

/-- The theorem at an expansion with options, which comes back. -/
theorem parts_query_reads_back :
    Query.parse partsContext (String.ofList partsQuery.text) = .ok partsQuery := by
  have hnames : ∀ f ∈ partsContext.functions.signatures, f.name ∉ Expression.reservedWords := by
    decide
  have hparse : Query.parse partsContext "$expand=parts($top=05)" = .ok partsQuery := by
    decide +kernel
  have hall : partsQuery.all = [partsQuery, { Query.empty with top := some 5 }] := rfl
  have hfinite : ∀ q' ∈ partsQuery.all, ∀ d ∈ q'.durations, d.seconds.isFinite = true := by
    rw [hall]
    decide
  have hoptions : partsQuery.options = [("$expand", "parts($top=5)".toList)] := rfl
  have hraw : ∀ o ∈ partsQuery.options, Query.IsRaw o.2 := by
    rw [hoptions]
    exact List.forall_mem_singleton.mpr ⟨by decide, by decide⟩
  refine (query_reads_back_iff partsContext hnames _ partsQuery hparse hfinite hraw).mpr ⟨?_, ?_⟩
  · unfold Query.BeginsFirst
    rw [hall]
    decide
  · unfold Query.IsWritten
    rw [hall]
    decide

/-- What `$filter='a%26b' eq 'x'` is read as. -/
def ampersandQuery : Query :=
  { Query.empty with
    filter := some (.binary .equal (.constant (.string "a&b")) (.constant (.string "x"))) }

/-- Not every query that was read comes back from its text: an ampersand in a text constant, which
a request encodes, is written as it is and cuts the text. -/
theorem ampersand_query_does_not_read_back :
    ¬ ∀ (ctx : Context) (t : String) (q : Query), Query.parse ctx t = .ok q →
      Query.parse ctx (String.ofList q.text) = .ok q := by
  intro hback
  have hparse : Query.parse partsContext "$filter='a%26b' eq 'x'" = .ok ampersandQuery := by
    decide +kernel
  have htext : String.ofList ampersandQuery.text = "$filter='a&b' eq 'x'" := rfl
  have hcut : Query.parse partsContext "$filter='a&b' eq 'x'" =
      .error (.expression "$filter" .malformed) := by decide +kernel
  have hagain := hback partsContext _ _ hparse
  rw [htext, hcut] at hagain
  cases hagain

end SensorQuery
