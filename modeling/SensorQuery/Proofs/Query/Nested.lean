import Mathlib.Data.List.Nodup
import SensorQuery.Query.Options
import SensorQuery.Proofs.Fallible
import SensorQuery.Proofs.Query.Hops

/-!
# Queries that a text can hold

What every query that is read has (`Query.Formed`), with all queries inside it. The name of a
result format is any text in a request. In an expansion the options stand in parentheses, so the
name closes the quotes and parentheses that it opens, and no semicolon of it stands outside them.
-/

namespace SensorQuery

open Fallible

namespace Text

variable {s : List Char}

private theorem trimEnd_append (s : List Char) :
    trimEnd s ++ (s.reverse.takeWhile isBlank).reverse = s := by
  rw [trimEnd, ← List.reverse_append, List.takeWhile_append_dropWhile, List.reverse_reverse]

/-- Trimming takes blanks off both ends. -/
theorem exists_trim (s : List Char) : ∃ front back, s = front ++ trim s ++ back ∧
    (∀ c ∈ front, isBlank c = true) ∧ ∀ c ∈ back, isBlank c = true := by
  refine ⟨s.takeWhile isBlank, ((trimStart s).reverse.takeWhile isBlank).reverse, ?_, ?_, ?_⟩
  · rw [List.append_assoc, trim, trimEnd_append, trimStart, List.takeWhile_append_dropWhile]
  · exact List.all_eq_true.mp List.all_takeWhile
  · intro c hc
    exact List.all_eq_true.mp List.all_takeWhile c (List.mem_reverse.mp hc)

/-- What trimming leaves has no blanks at its ends. -/
theorem edged_trim (h : trim s ≠ []) : Edged (trim s) := by
  refine ⟨h, ?_, ?_⟩
  · have hfront : ∀ c ∈ (trimStart s).head?, isBlank c = false :=
      Scanner.stops_dropWhile isBlank s
    rw [← trimEnd_append (trimStart s)] at hfront
    obtain ⟨c, t, ht⟩ := List.exists_cons_of_ne_nil h
    rw [show trimEnd (trimStart s) = c :: t from ht] at hfront
    rw [ht]
    exact hfront
  · intro c hc
    rw [trim, trimEnd, List.getLast?_reverse] at hc
    exact Scanner.stops_dropWhile isBlank _ c hc

/-- A text with a character that is not blank has something left. -/
theorem trim_ne_nil {c : Char} (hc : c ∈ s) (hblank : isBlank c = false) : trim s ≠ [] := by
  intro htrim
  obtain ⟨front, back, htext, hfront, hback⟩ := exists_trim s
  rw [htext, htrim, List.append_nil, List.mem_append] at hc
  rcases hc with hc | hc
  · exact Bool.false_ne_true (hblank.symm.trans (hfront c hc))
  · exact Bool.false_ne_true (hblank.symm.trans (hback c hc))

/-- The place that a text leads from and to is the same without plain characters at its ends. -/
theorem sealed_of_append {bar : Char → Bool} {front back : List Char}
    (h : Sealed bar (front ++ s ++ back))
    (hfront : ∀ c ∈ front, isBare c = true ∧ bar c = false)
    (hback : ∀ c ∈ back, isBare c = true ∧ bar c = false) : Sealed bar s := by
  rw [Sealed, walk_append, walk_append, sealed_of_bare hfront, Option.bind_some] at h
  obtain ⟨place, hplace, h⟩ := Option.bind_eq_some_iff.mp h
  obtain ⟨quoted, depth⟩ := place
  rw [walk_bare (fun c hc ↦ (hback c hc).1) quoted (.inl fun c hc ↦ (hback c hc).2)] at h
  rw [Sealed, hplace, h]

end Text

/-- The paths are different and could have been read. A selection without paths is not distinct. -/
structure Select.Formed (ctx : Context) (s : Select) : Prop where
  nodup : s.paths.Nodup
  paths : ∀ p ∈ s.paths, ∃ w more, p.Formed ctx w more
  distinct : s.paths = [] → s.distinct = false

namespace Query

mutual

/-- The query and the queries of its expansions, at any depth. -/
def all : Query → List Query
  | ⟨top, skip, count, format, filter, orderBy, select, expand⟩ =>
    ⟨top, skip, count, format, filter, orderBy, select, expand⟩ :: allOf expand

/-- The queries of the expansions, at any depth. -/
def allOf : List (Expand Query) → List Query
  | [] => []
  | ⟨_, none⟩ :: es => allOf es
  | ⟨_, some q⟩ :: es => q.all ++ allOf es

end

/-- The durations in the query's filter and orders. -/
def durations (q : Query) : List Duration :=
  q.filter.toList.flatMap Expression.durations ++
    q.orderBy.flatMap fun o ↦ o.expression.durations

private theorem mem_allOf {q : Query} {es : List (Expand Query)} :
    q ∈ allOf es ↔ ∃ x ∈ es, ∃ q' ∈ x.query, q ∈ q'.all := by
  induction es with
  | nil => simp [allOf]
  | cons x es ih =>
    obtain ⟨path, query⟩ := x
    cases query <;> simp [allOf, ih]

/-- The queries in a query are itself and those in its expansions. -/
theorem mem_all {q q' : Query} :
    q ∈ q'.all ↔ q = q' ∨ ∃ x ∈ q'.expand, ∃ q'' ∈ x.query, q ∈ q''.all := by
  obtain ⟨top, skip, count, format, filter, orderBy, select, expand⟩ := q'
  rw [all, List.mem_cons, mem_allOf]

/-- What holds of all queries in a query holds of the query, and of all queries in those of its
expansions. -/
theorem forall_all_iff {P : Query → Prop} {q : Query} :
    (∀ q' ∈ q.all, P q') ↔ P q ∧ ∀ x ∈ q.expand, ∀ sub ∈ x.query, ∀ q' ∈ sub.all, P q' := by
  constructor
  · intro h
    refine ⟨h q (mem_all.mpr (.inl rfl)), fun x hx sub hsub q' hq' ↦ ?_⟩
    exact h q' (mem_all.mpr (.inr ⟨x, hx, sub, hsub, hq'⟩))
  · rintro ⟨hq, hsubs⟩ q' hq'
    rcases mem_all.mp hq' with rfl | ⟨x, hx, sub, hsub, hq'⟩
    · exact hq
    · exact hsubs x hx sub hsub q' hq'

/-- The text can be the value of an option in the scope: it is not trimmed, nor cut in an
expansion. -/
structure IsValue (scope : Scope) (v : List Char) : Prop where
  edged : Text.Edged v
  sealed : scope = .expansion → Text.Sealed (· == ';') v

/-- The query could have been read in the scope, with durations that have the property. -/
inductive Formed (ctx : Context) (P : Duration → Prop) : Scope → Query → Prop where
  | intro {scope : Scope} {q : Query} (filter : ∀ e ∈ q.filter, e.Formed ctx P)
    (orders : ∀ o ∈ q.orderBy, o.expression.Formed ctx P) (select : q.select.Formed ctx)
    (format : ∀ f ∈ q.resultFormat, IsValue scope f.toList)
    (hops : ∀ x ∈ q.expand, x.path.IsHop ctx)
    (queries : ∀ x ∈ q.expand, ∀ q' ∈ x.query, Formed ctx P .expansion q') :
    Formed ctx P scope q

variable {ctx : Context} {P Q : Duration → Prop}

/-- Only the durations of the queries count. -/
theorem Formed.imp {scope : Scope} {q : Query} (h : q.Formed ctx P scope)
    (hPQ : ∀ q' ∈ q.all, ∀ d ∈ q'.durations, P d → Q d) : q.Formed ctx Q scope := by
  induction h with
  | @intro scope q filter orders select format hops _ ih =>
    have hself := hPQ q (mem_all.mpr (.inl rfl))
    simp only [durations, List.mem_append, List.mem_flatMap, Option.mem_toList] at hself
    refine .intro (fun e he ↦ (filter e he).imp fun d hd ↦ hself d (.inl ⟨e, he, hd⟩))
      (fun o ho ↦ (orders o ho).imp fun d hd ↦ hself d (.inr ⟨o, ho, hd⟩)) select format hops ?_
    intro x hx q' hq'
    exact ih x hx q' hq' fun q'' hq'' ↦ hPQ q'' (mem_all.mpr (.inr ⟨x, hx, q', hq', hq''⟩))

/-! ### Selections -/

/-- A list is cut at its commas. -/
theorem items_eq_ok {s : List Char} {parts : List (List Char)} :
    items s = .ok parts ↔ Text.splitTopLevel ',' s = some parts := by
  unfold items
  cases Text.splitTopLevel ',' s <;> simp

/-- Reading in an option succeeds as reading does. -/
theorem inOption_eq_ok {α : Type} {option : String} {x : Except ExpressionError α} {a : α} :
    inOption option x = .ok a ↔ x = .ok a := by
  cases x <;> simp [inOption]

/-- A path that is selected is there already, or is put behind the others. -/
theorem insert_paths (s : Select) (p : PropertyPath) :
    (s.insert p).1.paths = s.paths ∧ p ∈ s.paths ∨
      (s.insert p).1.paths = s.paths ++ [p] ∧ p ∉ s.paths := by
  unfold Select.insert
  cases h : s.paths.contains p with
  | true => exact .inl ⟨by simp, List.contains_iff_mem.mp h⟩
  | false => exact .inr ⟨by simp, by simpa using h⟩

/-- Inserting a path adds it to those that are there. -/
theorem forall_insert_iff {P : PropertyPath → Prop} (s : Select) (p : PropertyPath) :
    (∀ p' ∈ (s.insert p).1.paths, P p') ↔ (∀ p' ∈ s.paths, P p') ∧ P p := by
  rcases insert_paths s p with ⟨hsame, hmem⟩ | ⟨hmore, -⟩
  · rw [hsame]
    exact ⟨fun h ↦ ⟨h, h p hmem⟩, And.left⟩
  · rw [hmore, List.forall_mem_append, List.forall_mem_singleton]

private theorem nodup_insert {s : Select} (h : s.paths.Nodup) (p : PropertyPath) :
    (s.insert p).1.paths.Nodup := by
  rcases insert_paths s p with ⟨hsame, -⟩ | ⟨hmore, hnew⟩
  · rwa [hsame]
  · rw [hmore, ← List.concat_eq_append]
    exact List.Nodup.concat hnew h

private theorem insert_ne_nil (s : Select) (p : PropertyPath) : (s.insert p).1.paths ≠ [] :=
  List.ne_nil_of_mem ((forall_insert_iff s p).mp fun _ h ↦ h).2

/-- A selected item adds the path that it is read as. -/
theorem selectItem_eq_ok {s s' : Select} {item : List Char} : selectItem ctx s item = .ok s' ↔
    ∃ text p, parseItem "$select" "empty select item" item = .ok text ∧
      PropertyPath.parse ctx (String.ofList text) = .ok p ∧ s' = (s.insert p).1 := by
  simp only [selectItem, bind_eq_ok, inOption_eq_ok, pure, Except.pure, Except.ok.injEq]
  constructor
  · rintro ⟨text, htext, p, hp, rfl⟩
    exact ⟨text, p, htext, hp, rfl⟩
  · rintro ⟨text, p, htext, hp, rfl⟩
    exact ⟨text, htext, p, hp, rfl⟩

/-- What is read as a selection could have been read. -/
theorem formed_of_parseSelect {value : List Char} {s : Select}
    (h : parseSelect ctx value = .ok s) : s.Formed ctx := by
  obtain ⟨parts, hparts, h⟩ := bind_eq_ok.mp h
  have hkeep : s.paths.Nodup ∧ ∀ p ∈ s.paths, ∃ w more, p.Formed ctx w more := by
    refine foldlM_keeps (P := fun s ↦ s.paths.Nodup ∧ ∀ p ∈ s.paths, ∃ w more, p.Formed ctx w more)
      ?_ ⟨List.nodup_nil, nofun⟩ h
    rintro s item s' - ⟨hnodup, hpaths⟩ hitem
    obtain ⟨_, p, -, hp, rfl⟩ := selectItem_eq_ok.mp hitem
    exact ⟨nodup_insert hnodup p,
      (forall_insert_iff s p).mpr ⟨hpaths, PropertyPath.exists_of_parse hp⟩⟩
  -- There is a first item, and no item takes paths away.
  have hne : s.paths ≠ [] := by
    obtain ⟨hnil, -⟩ := Text.walk_of_splitTopLevel (items_eq_ok.mp hparts)
    obtain ⟨part, more, rfl⟩ := List.exists_cons_of_ne_nil hnil
    rw [List.foldlM_cons] at h
    obtain ⟨s', hs', h⟩ := bind_eq_ok.mp h
    have hstep {s s' : Select} {item : List Char} (hitem : selectItem ctx s item = .ok s') :
        s'.paths ≠ [] := by
      obtain ⟨_, p, -, -, rfl⟩ := selectItem_eq_ok.mp hitem
      exact insert_ne_nil s p
    exact foldlM_keeps (P := fun s ↦ s.paths ≠ []) (fun _ _ _ _ _ hitem ↦ hstep hitem)
      (hstep hs') h
  exact ⟨hkeep.1, hkeep.2, fun hnil ↦ absurd hnil hne⟩

/-! ### Expansions -/

-- The path is a hop, and the query could have been read in parentheses.
private def FormedExpand (ctx : Context) (x : Expand Query) : Prop :=
  x.path.IsHop ctx ∧ ∀ q ∈ x.query, q.Formed ctx Duration.IsUnsigned .expansion

private theorem formed_only_expand {es : List (Expand Query)} (h : ∀ x ∈ es, FormedExpand ctx x)
    (scope : Scope) : Formed ctx Duration.IsUnsigned scope { empty with expand := es } := by
  refine .intro (fun e he ↦ by cases he) (fun o ho ↦ by cases ho)
    ⟨List.nodup_nil, (fun p hp ↦ by cases hp), fun _ ↦ rfl⟩ (fun f hf ↦ by cases hf)
    (fun x hx ↦ (h x hx).1) (fun x hx ↦ (h x hx).2)

private theorem formed_nestExpand {hops : List PropertyPath} (hne : hops ≠ [])
    (h : ∀ p ∈ hops, p.IsHop ctx) {query : Option Query}
    (hquery : ∀ q ∈ query, q.Formed ctx Duration.IsUnsigned .expansion) :
    FormedExpand ctx (nestExpand hops query) := by
  induction hops with
  | nil => exact absurd rfl hne
  | cons p hops ih =>
    obtain ⟨hp, hhops⟩ := List.forall_mem_cons.mp h
    cases hops with
    | nil => exact ⟨hp, hquery⟩
    | cons p' hops =>
      refine ⟨hp, ?_⟩
      rintro q ⟨⟩
      exact formed_only_expand
        (List.forall_mem_singleton.mpr (ih (List.cons_ne_nil p' hops) hhops)) _

/-- In an item that ends outside parentheses, what stands between the first and the last parenthesis
ends outside quotes. -/
theorem walk_inner {item path inner front back : List Char} {b b' : Bool}
    (hitem : Text.walk (· == ',') (false, 0) item = some (b, 0))
    (htrim : item = front ++ (path ++ '(' :: (inner ++ [')'])) ++ back)
    (hfront : ∀ c ∈ front, Text.isBlank c = true) (hback : ∀ c ∈ back, Text.isBlank c = true)
    (hpath : Text.Sealed isListMark path)
    (hinner : Text.walk (fun _ ↦ false) (false, 0) inner = some (b', 0)) : b' = false := by
  have hshift : Text.walk (fun _ ↦ false) (false, 1) inner = some (b', 1) :=
    Text.walk_shift hinner (.inl Nat.one_ne_zero)
  have hsealed : Text.Balanced path := hpath.balanced
  have hplain : Text.walk (fun _ ↦ false) (false, 0) item = some (b, 0) :=
    Text.walk_mono hitem fun c hc ↦ by cases hc
  rw [htrim, Text.walk_append, Text.walk_append, Text.walk_blank hfront, Option.bind_some,
    Text.walk_append, hsealed, Option.bind_some, Text.walk_cons,
    show Text.stepPlace (fun _ ↦ false) (false, 0) '(' = some (false, 1) from rfl,
    Option.bind_some, Text.walk_append, hshift, Option.bind_some] at hplain
  cases b' with
  | false => rfl
  | true =>
    rw [show Text.walk (fun _ ↦ false) (true, 1) [')'] = some (true, 1) from rfl,
      Option.bind_some, Text.walk_blank hback] at hplain
    cases hplain

-- What the reader of an expansion's options answers with could have been read there, if the text
-- ends outside quotes.
private def ReadsFormed (ctx : Context) (nested : List Char → Except QueryError Query) : Prop :=
  ∀ s q, nested s = .ok q → ∃ b, Text.walk (fun _ ↦ false) (false, 0) s = some (b, 0) ∧
    (b = false → q.Formed ctx Duration.IsUnsigned .expansion)

variable {nested : List Char → Except QueryError Query}

/-- An expansion with parentheses is its path, cut behind its blanks, and what stands between them.
-/
theorem exists_of_splitExpandItem {item path inner : List Char}
    (h : splitExpandItem item = .ok (path, some inner)) :
    ∃ front, item = front ++ '(' :: (inner ++ [')']) ∧ path = Text.trimEnd front := by
  unfold splitExpandItem at h
  split at h
  · cases h
  · next front rest hcut =>
    split at h
    · next hlast =>
      cases h
      obtain ⟨rest, rfl⟩ := List.getLast?_eq_some_iff.mp hlast
      refine ⟨front, ?_, rfl⟩
      rw [List.dropLast_concat]
      exact (Text.cutAt?_eq_some hcut).1
    · cases h

/-- What a path is read from, and blanks behind it, end nothing and separate nothing. -/
theorem sealed_of_parse {front : List Char} {p : PropertyPath}
    (h : PropertyPath.parse ctx (String.ofList (Text.trimEnd front)) = .ok p) :
    Text.Sealed isListMark front := by
  have hblank {c : Char} (hc : Text.isBlank c = true) :
      Text.isBare c = true ∧ isListMark c = false := by
    refine ⟨Text.isBare_of_isBlank hc, ?_⟩
    have hcomma : c ≠ ',' := Text.ne_of_isBlank hc (by decide)
    have hsemicolon : c ≠ ';' := Text.ne_of_isBlank hc (by decide)
    simp [isListMark, hcomma, hsemicolon]
  have hchars := PropertyPath.isPathChar_of_parse h
  rw [String.toList_ofList] at hchars
  rw [← Text.trimEnd_append front]
  refine Text.sealed_of_bare (List.forall_mem_append.mpr ⟨fun c hc ↦ ?_, fun c hc ↦ ?_⟩)
  · rcases hchars c hc with hpath | hwhite
    · have hplain : isPlainChar c = true := by rw [isPlainChar, hpath, Bool.true_or]
      exact ⟨isBare_of_isPlainChar hplain, isListMark_of_isPlainChar hplain⟩
    · exact hblank (Text.isBlank_of_isWhitespace c hwhite)
  · exact hblank (List.all_eq_true.mp List.all_takeWhile c (List.mem_reverse.mp hc))

/-- An item is read without the blanks around it, of which it does not consist. -/
theorem parseItem_eq_ok {option reason : String} {item s : List Char}
    (h : parseItem option reason item = .ok s) : s = Text.trim item ∧ s ≠ [] := by
  rw [parseItem] at h
  split at h
  · cases h
  · next hne =>
    cases h
    exact ⟨rfl, by simpa using hne⟩

/-- An expanded item is the path that it begins with, cut into hops, with the query of its
options. -/
theorem parseExpandItem_eq_ok {item : List Char} {x : Expand Query} :
    parseExpandItem ctx nested item = .ok x ↔ ∃ trimmed path inner p query,
      parseItem "$expand" "empty expand item" item = .ok trimmed ∧
        splitExpandItem trimmed = .ok (path, inner) ∧
          PropertyPath.parse ctx (String.ofList path) = .ok p ∧
            parseNested nested inner = .ok query ∧ x = nestExpand p.hops query := by
  simp only [parseExpandItem, bind_eq_ok, inOption_eq_ok, pure, Except.pure, Except.ok.injEq]
  constructor
  · rintro ⟨trimmed, htrimmed, ⟨path, inner⟩, hsplit, p, hp, query, hquery, rfl⟩
    exact ⟨trimmed, path, inner, p, query, htrimmed, hsplit, hp, hquery, rfl⟩
  · rintro ⟨trimmed, path, inner, p, query, htrimmed, hsplit, hp, hquery, rfl⟩
    exact ⟨trimmed, htrimmed, (path, inner), hsplit, p, hp, query, hquery, rfl⟩

/-- The query of an expansion is read from what stands in its parentheses. -/
theorem exists_of_parseNested {inner : Option (List Char)} {query : Option Query} {q : Query}
    (h : parseNested nested inner = .ok query) (hq : q ∈ query) :
    ∃ s, inner = some s ∧ nested s = .ok q := by
  cases inner with
  | none =>
    cases h
    cases hq
  | some s =>
    rw [parseNested] at h
    split at h
    · cases h
      cases hq
    · obtain ⟨q', hq', h⟩ := bind_eq_ok.mp h
      cases h
      cases hq
      exact ⟨s, rfl, hq'⟩

private theorem formed_of_parseExpandItem (hnested : ReadsFormed ctx nested) {item : List Char}
    {x : Expand Query} (h : parseExpandItem ctx nested item = .ok x) {b : Bool}
    (hitem : Text.walk (· == ',') (false, 0) item = some (b, 0)) : FormedExpand ctx x := by
  obtain ⟨trimmed, path, inner, p, query, htrimmed, hsplit, hp, hquery, rfl⟩ :=
    parseExpandItem_eq_ok.mp h
  obtain ⟨hne, hhops⟩ := PropertyPath.isHop_of_parse hp
  refine formed_nestExpand hne hhops fun q hq ↦ ?_
  obtain ⟨inner, rfl, hinner⟩ := exists_of_parseNested hquery hq
  obtain ⟨b', hwalk, hformed⟩ := hnested inner q hinner
  obtain ⟨front, htext, rfl⟩ := exists_of_splitExpandItem hsplit
  obtain ⟨lead, trail, hitemText, hlead, htrail⟩ := Text.exists_trim item
  rw [← (parseItem_eq_ok htrimmed).1, htext] at hitemText
  exact hformed (walk_inner hitem hitemText hlead htrail (sealed_of_parse hp) hwalk)

/-! ### Options -/

/-- What one option sets. -/
inductive Setting where
  | top (n : UInt64)
  | skip (n : UInt64)
  | count (b : Bool)
  | filter (e : Expression)
  | orderBy (os : List Order)
  | select (s : Select)
  | expand (es : List (Expand Query))
  | resultFormat (f : String)

namespace Setting

/-- The name of the option that makes the setting. -/
def option : Setting → String
  | .top _ => "$top"
  | .skip _ => "$skip"
  | .count _ => "$count"
  | .filter _ => "$filter"
  | .orderBy _ => "$orderby"
  | .select _ => "$select"
  | .expand _ => "$expand"
  | .resultFormat _ => "$resultFormat"

end Setting

/-- The query with one more setting. -/
def assign (q : Query) : Setting → Query
  | .top n => { q with top := some n }
  | .skip n => { q with skip := some n }
  | .count b => { q with count := some b }
  | .filter e => { q with filter := some e }
  | .orderBy os => { q with orderBy := os }
  | .select s => { q with select := s }
  | .expand es => { q with expand := es }
  | .resultFormat f => { q with resultFormat := some f }

/-- The value is read as what is set. -/
inductive Setting.ReadFrom (ctx : Context) (nested : List Char → Except QueryError Query)
    (value : List Char) : Setting → Prop where
  | top {n : UInt64} (read : parseNumber "$top" value = .ok n) : ReadFrom ctx nested value (.top n)
  | skip {n : UInt64} (read : parseNumber "$skip" value = .ok n) :
    ReadFrom ctx nested value (.skip n)
  | count {b : Bool} (read : parseFlag "$count" value = .ok b) :
    ReadFrom ctx nested value (.count b)
  | filter {e : Expression} (read : Expression.parse ctx (String.ofList value) = .ok e) :
    ReadFrom ctx nested value (.filter e)
  | orderBy {os : List Order} (read : Order.parse ctx (String.ofList value) = .ok os) :
    ReadFrom ctx nested value (.orderBy os)
  | select {s : Select} (read : parseSelect ctx value = .ok s) :
    ReadFrom ctx nested value (.select s)
  | expand {es : List (Expand Query)} (read : parseExpand ctx nested value = .ok es) :
    ReadFrom ctx nested value (.expand es)
  | resultFormat (ne_nil : value ≠ []) :
    ReadFrom ctx nested value (.resultFormat (String.ofList value))

private theorem exists_readFrom_of_bind {α : Type} {x : Except QueryError α} {q q' : Query}
    {name : String} {value : List Char} (make : α → Setting) (hname : ∀ v, (make v).option = name)
    (hread : ∀ v, x = .ok v → (make v).ReadFrom ctx nested value)
    (h : (x >>= fun v ↦ .ok (q.assign (make v))) = .ok q') :
    ∃ a : Setting, a.option = name ∧ a.ReadFrom ctx nested value ∧ q' = q.assign a := by
  obtain ⟨v, hv, h⟩ := bind_eq_ok.mp h
  cases h
  exact ⟨make v, hname v, hread v hv, rfl⟩

private theorem exists_readFrom {q q' : Query} {name : String} {value : List Char}
    (h : setOption ctx nested q name value = .ok q') :
    ∃ a : Setting, a.option = name ∧ a.ReadFrom ctx nested value ∧ q' = q.assign a := by
  unfold setOption at h
  split at h
  · next hname =>
    subst hname
    exact exists_readFrom_of_bind .top (fun _ ↦ rfl) (fun _ ↦ .top) h
  split at h
  · next hname =>
    subst hname
    exact exists_readFrom_of_bind .skip (fun _ ↦ rfl) (fun _ ↦ .skip) h
  split at h
  · next hname =>
    subst hname
    exact exists_readFrom_of_bind .count (fun _ ↦ rfl) (fun _ ↦ .count) h
  split at h
  · next hname =>
    subst hname
    exact exists_readFrom_of_bind .filter (fun _ ↦ rfl)
      (fun _ hv ↦ .filter (inOption_eq_ok.mp hv)) h
  split at h
  · next hname =>
    subst hname
    exact exists_readFrom_of_bind .orderBy (fun _ ↦ rfl)
      (fun _ hv ↦ .orderBy (inOption_eq_ok.mp hv)) h
  split at h
  · next hname =>
    subst hname
    exact exists_readFrom_of_bind .select (fun _ ↦ rfl) (fun _ ↦ .select) h
  split at h
  · next hname =>
    subst hname
    exact exists_readFrom_of_bind .expand (fun _ ↦ rfl) (fun _ ↦ .expand) h
  split at h
  · next hname =>
    subst hname
    split at h
    · cases h
    · next hempty =>
      cases h
      exact ⟨_, rfl, .resultFormat (by simpa using hempty), rfl⟩
  · cases h

/-- An option is added to a query exactly if its value is read as what it sets, whatever has been
set before. -/
theorem setOption_eq_ok_iff {q q' : Query} {name : String} {value : List Char} :
    setOption ctx nested q name value = .ok q' ↔
      ∃ a : Setting, a.option = name ∧ a.ReadFrom ctx nested value ∧ q' = q.assign a := by
  constructor
  · exact exists_readFrom
  · rintro ⟨a, rfl, hread, rfl⟩
    cases hread with
    | top read | skip read | count read | select read | expand read =>
      simp [setOption, Setting.option, assign, read]
    | filter read | orderBy read => simp [setOption, Setting.option, assign, inOption, read]
    | resultFormat ne_nil => simp [setOption, Setting.option, assign, ne_nil]

/-- What an option makes of a query: it sets one of the four parts that have paths, or else a
number, a flag or the name of a format, which are read alike in every context. -/
inductive SetsPart (ctx : Context) (nested : List Char → Except QueryError Query) (q : Query)
    (name : String) (value : List Char) : Query → Prop where
  | filter {e : Expression} (named : name = "$filter")
    (read : Expression.parse ctx (String.ofList value) = .ok e) :
    SetsPart ctx nested q name value { q with filter := some e }
  | orderBy {os : List Order} (named : name = "$orderby")
    (read : Order.parse ctx (String.ofList value) = .ok os) :
    SetsPart ctx nested q name value { q with orderBy := os }
  | select {s : Select} (named : name = "$select") (read : parseSelect ctx value = .ok s) :
    SetsPart ctx nested q name value { q with select := s }
  | expand {es : List (Expand Query)} (named : name = "$expand")
    (read : parseExpand ctx nested value = .ok es) :
    SetsPart ctx nested q name value { q with expand := es }
  | other {top skip : Option UInt64} {count : Option Bool} {format : Option String}
    (format_eq : format = q.resultFormat ∨
      name = "$resultFormat" ∧ value ≠ [] ∧ format = some (String.ofList value))
    (alike : ∀ ctx' nested', setOption ctx' nested' q name value =
      .ok { q with top := top, skip := skip, count := count, resultFormat := format }) :
    SetsPart ctx nested q name value
      { q with top := top, skip := skip, count := count, resultFormat := format }

/-- An option sets the part of the query that its name stands for. -/
theorem setsPart_of_setOption {q q' : Query} {name : String} {value : List Char}
    (h : setOption ctx nested q name value = .ok q') : SetsPart ctx nested q name value q' := by
  obtain ⟨a, rfl, hread, rfl⟩ := setOption_eq_ok_iff.mp h
  cases hread with
  | filter read => exact .filter rfl read
  | orderBy read => exact .orderBy rfl read
  | select read => exact .select rfl read
  | expand read => exact .expand rfl read
  | top read =>
    exact .other (.inl rfl) fun _ _ ↦ setOption_eq_ok_iff.mpr ⟨_, rfl, .top read, rfl⟩
  | skip read =>
    exact .other (.inl rfl) fun _ _ ↦ setOption_eq_ok_iff.mpr ⟨_, rfl, .skip read, rfl⟩
  | count read =>
    exact .other (.inl rfl) fun _ _ ↦ setOption_eq_ok_iff.mpr ⟨_, rfl, .count read, rfl⟩
  | resultFormat ne_nil =>
    exact .other (.inr ⟨rfl, ne_nil, rfl⟩) fun _ _ ↦
      setOption_eq_ok_iff.mpr ⟨_, rfl, .resultFormat ne_nil, rfl⟩

private theorem formed_of_parseExpand (hnested : ReadsFormed ctx nested) {value : List Char}
    {es : List (Expand Query)} (h : parseExpand ctx nested value = .ok es) :
    ∀ x ∈ es, FormedExpand ctx x := by
  obtain ⟨parts, hparts, hes⟩ := bind_eq_ok.mp h
  intro x hx
  obtain ⟨part, hpart, hpartx⟩ := exists_of_mapM hes x hx
  obtain ⟨-, _, -, hpieces⟩ := Text.walk_of_splitTopLevel (items_eq_ok.mp hparts)
  obtain ⟨b, hb, -⟩ := hpieces part hpart
  exact formed_of_parseExpandItem hnested hpartx hb

private theorem formed_of_setOption
    (hnames : ∀ f ∈ ctx.functions.signatures, f.name ∉ Expression.reservedWords)
    (hnested : ReadsFormed ctx nested) {scope : Scope} {q q' : Query} {name : String}
    {value : List Char} (hq : q.Formed ctx Duration.IsUnsigned scope)
    (h : setOption ctx nested q name value = .ok q')
    (hvalue : name = "$resultFormat" → value ≠ [] → IsValue scope value) :
    q'.Formed ctx Duration.IsUnsigned scope := by
  obtain ⟨filter, orders, select, format, hops, queries⟩ := hq
  cases setsPart_of_setOption h with
  | filter _ read =>
    refine .intro ?_ orders select format hops queries
    rintro _ ⟨⟩
    exact Expression.formed_of_parse hnames read
  | orderBy _ read =>
    exact .intro filter (Order.formed_of_parse hnames read).2 select format hops queries
  | select _ read => exact .intro filter orders (formed_of_parseSelect read) format hops queries
  | expand _ read =>
    have hformed := formed_of_parseExpand hnested read
    exact .intro filter orders select format (fun x hx ↦ (hformed x hx).1)
      (fun x hx ↦ (hformed x hx).2)
  | other format_eq =>
    refine .intro filter orders select ?_ hops queries
    intro f hf
    rcases format_eq with rfl | ⟨hname, hne, rfl⟩
    · exact format f hf
    · cases hf
      rw [String.toList_ofList]
      exact hvalue hname hne

-- The name of a result format in a sealed option is sealed.
private theorem isValue_of_splitOption {scope : Scope} {item : List Char} {name : String}
    {value : List Char} (h : splitOption scope item = .ok (name, value))
    (hitem : scope = .expansion → Text.Sealed (· == ';') item) (hname : name = "$resultFormat")
    (hne : value ≠ []) : IsValue scope value := by
  unfold splitOption at h
  split at h
  · cases h
  · next rawName rawValue hcut =>
    obtain ⟨decodedName, hdecodedName, h⟩ := bind_eq_ok.mp h
    obtain ⟨decodedValue, hdecodedValue, h⟩ := bind_eq_ok.mp h
    cases h
    refine ⟨Text.edged_trim hne, ?_⟩
    rintro rfl
    cases hdecodedName
    cases hdecodedValue
    have htrim : Text.trim rawName = "$resultFormat".toList := by
      rw [← hname, String.toList_ofList]
    obtain ⟨lead, trail, hrawName, hlead, htrail⟩ := Text.exists_trim rawName
    obtain ⟨front, back, hrawValue, hfront, hback⟩ := Text.exists_trim rawValue
    have hblank {c : Char} (hc : Text.isBlank c = true) :
        Text.isBare c = true ∧ (c == ';') = false :=
      ⟨Text.isBare_of_isBlank hc, beq_eq_false_iff_ne.mpr (Text.ne_of_isBlank hc (by decide))⟩
    have hword : ∀ c ∈ "$resultFormat".toList, Text.isBare c = true ∧ (c == ';') = false := by
      have hall : ("$resultFormat".toList.all fun c ↦ Text.isBare c && !(c == ';')) = true := by
        decide
      intro c hc
      simpa using List.all_eq_true.mp hall c hc
    have hsealed := hitem rfl
    rw [(Text.cutAt?_eq_some hcut).1, hrawValue] at hsealed
    have hparts : Text.Sealed (· == ';')
        ((rawName ++ '=' :: front) ++ Text.trim rawValue ++ back) := by
      simpa only [List.append_assoc, List.cons_append] using hsealed
    refine Text.sealed_of_append hparts ?_ fun c hc ↦ hblank (hback c hc)
    rw [hrawName, htrim]
    simp only [List.forall_mem_append, List.forall_mem_cons]
    exact ⟨⟨⟨fun c hc ↦ hblank (hlead c hc), hword⟩, fun c hc ↦ hblank (htrail c hc)⟩,
      by decide, fun c hc ↦ hblank (hfront c hc)⟩

/-- A blank item is passed over. Any other is an option with a new name, which is set before the
items behind it are read. -/
theorem readItems_cons_eq_ok {scope : Scope} {q q' : Query} {seen : List String}
    {item : List Char} {items : List (List Char)} :
    readItems ctx nested scope q seen (item :: items) = .ok q' ↔
      ((Text.trim item).isEmpty = true ∧ readItems ctx nested scope q seen items = .ok q') ∨
      ((Text.trim item).isEmpty = false ∧ ∃ name value set,
        splitOption scope item = .ok (name, value) ∧ name ∉ seen ∧
          setOption ctx nested q name value = .ok set ∧
            readItems ctx nested scope set (name :: seen) items = .ok q') := by
  rw [readItems]
  cases hblank : (Text.trim item).isEmpty with
  | true => simp
  | false =>
    simp only [Bool.false_eq_true, ite_false, false_and, false_or, true_and, bind_eq_ok]
    constructor
    · rintro ⟨⟨name, value⟩, hsplit, h⟩
      by_cases hseen : name ∈ seen
      · simp [hseen] at h
      · simp only [List.contains_iff_mem, hseen, ite_false, bind_eq_ok] at h
        obtain ⟨set, hset, h⟩ := h
        exact ⟨name, value, set, hsplit, hseen, hset, h⟩
    · rintro ⟨name, value, set, hsplit, hseen, hset, h⟩
      refine ⟨(name, value), hsplit, ?_⟩
      simp only [List.contains_iff_mem, hseen, ite_false, bind_eq_ok]
      exact ⟨set, hset, h⟩

-- Options that are read in order make a query that could have been read.
private theorem formed_of_readItems
    (hnames : ∀ f ∈ ctx.functions.signatures, f.name ∉ Expression.reservedWords)
    (hnested : ReadsFormed ctx nested) {scope : Scope} {items : List (List Char)}
    (hitems : scope = .expansion → ∀ item ∈ items, Text.Sealed (· == ';') item) {q q' : Query}
    {seen : List String} (hq : q.Formed ctx Duration.IsUnsigned scope)
    (h : readItems ctx nested scope q seen items = .ok q') :
    q'.Formed ctx Duration.IsUnsigned scope := by
  induction items generalizing q seen with
  | nil =>
    cases h
    exact hq
  | cons item items ih =>
    have hmore : scope = .expansion → ∀ item ∈ items, Text.Sealed (· == ';') item :=
      fun hscope it hit ↦ hitems hscope it (List.mem_cons_of_mem item hit)
    rcases readItems_cons_eq_ok.mp h with ⟨-, h⟩ | ⟨-, name, value, q'', hsplit, -, hset, h⟩
    · exact ih hmore hq h
    · refine ih hmore (formed_of_setOption hnames hnested hq hset ?_) h
      exact isValue_of_splitOption hsplit fun hscope ↦ hitems hscope item List.mem_cons_self

private theorem formed_empty (scope : Scope) :
    (empty : Query).Formed ctx Duration.IsUnsigned scope :=
  formed_only_expand (fun x hx ↦ by cases hx) scope

private theorem splitTopLevel_of_pieces {s : List Char} {items : List (List Char)}
    (h : Scope.expansion.pieces s = .ok items) : Text.splitTopLevel ';' s = some items := by
  rw [Scope.pieces] at h
  split at h
  · next parts hparts =>
    cases h
    exact hparts
  · cases h

/-- The options of an expansion end outside parentheses. -/
theorem exists_walk_of_parseOptions {depth : Nat} {s : List Char} {q : Query}
    (h : parseOptions ctx depth .expansion s = .ok q) :
    ∃ b, Text.walk (fun _ ↦ false) (false, 0) s = some (b, 0) := by
  cases depth with
  | zero => cases h
  | succ depth =>
    obtain ⟨items, hitems, -⟩ := bind_eq_ok.mp h
    obtain ⟨-, b, hb, -⟩ := Text.walk_of_splitTopLevel (splitTopLevel_of_pieces hitems)
    exact ⟨b, hb⟩

-- Whatever is read as options could have been read. The options of an expansion stand in
-- parentheses, in front of which no quotes are open.
private theorem formed_of_parseOptions
    (hnames : ∀ f ∈ ctx.functions.signatures, f.name ∉ Expression.reservedWords) {depth : Nat}
    {scope : Scope} {s : List Char} {q : Query} (h : parseOptions ctx depth scope s = .ok q)
    (hs : scope = .expansion → Text.walk (fun _ ↦ false) (false, 0) s = some (false, 0)) :
    q.Formed ctx Duration.IsUnsigned scope := by
  induction depth generalizing scope s q with
  | zero => cases h
  | succ depth ih =>
    have hnested : ReadsFormed ctx (parseOptions ctx depth .expansion) := by
      intro inner q' hq'
      obtain ⟨b, hb⟩ := exists_walk_of_parseOptions hq'
      exact ⟨b, hb, fun hfalse ↦ ih hq' fun _ ↦ hfalse ▸ hb⟩
    obtain ⟨items, hitems, h⟩ := bind_eq_ok.mp h
    refine formed_of_readItems hnames hnested ?_ (formed_empty scope) h
    rintro rfl
    exact Text.sealed_of_splitTopLevel (splitTopLevel_of_pieces hitems) (hs rfl)

/-- Whatever is read as a query could have been read. -/
theorem formed_of_parse (hnames : ∀ f ∈ ctx.functions.signatures, f.name ∉ Expression.reservedWords)
    {t : String} {q : Query} (h : parse ctx t = .ok q) :
    q.Formed ctx Duration.IsUnsigned .request :=
  formed_of_parseOptions hnames h fun hscope ↦ by cases hscope

end Query

end SensorQuery
