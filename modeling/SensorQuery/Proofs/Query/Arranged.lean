import Mathlib.Data.List.Perm.Basic
import SensorQuery.Proofs.Query.Scopes

/-!
# Options in any order

An option sets one part of the query (`Setting`), the same whatever has been set before, and options
of different names set different parts. So a list of options is read exactly if each of its items
that is not blank makes a setting and no name comes twice; and the query has all these settings, in
whatever order they stand.
-/

namespace SensorQuery

open Fallible

namespace Query

/-- Settings of different options do not touch each other. -/
theorem assign_comm {a b : Setting} (h : a.option ≠ b.option) (q : Query) :
    (q.assign a).assign b = (q.assign b).assign a := by
  cases a <;> cases b <;> first | rfl | exact absurd rfl h

/-- Settings of different options give one query in whatever order they are made. -/
theorem foldl_assign_perm {as bs : List Setting} (hperm : as.Perm bs)
    (h : (as.map Setting.option).Nodup) (q : Query) : as.foldl assign q = bs.foldl assign q := by
  apply hperm.foldl_eq'
  intro a ha b hb q
  by_cases hab : a = b
  · rw [hab]
  · apply assign_comm
    intro hoption
    exact hab (List.inj_on_of_nodup_map h ha hb hoption)

/-! ### What an option sets -/

variable {ctx : Context} {nested : List Char → Except QueryError Query} {scope : Scope}

/-- The option with this name and value makes the setting, on whatever query. -/
structure Makes (ctx : Context) (nested : List Char → Except QueryError Query) (name : String)
    (value : List Char) (a : Setting) : Prop where
  option_eq : a.option = name
  sets : ∀ q, setOption ctx nested q name value = .ok (q.assign a)

/-- What an option makes of a query is what its setting makes of it. -/
theorem exists_makes_iff {q q' : Query} {name : String} {value : List Char} :
    setOption ctx nested q name value = .ok q' ↔
      ∃ a, Makes ctx nested name value a ∧ q' = q.assign a := by
  constructor
  · intro h
    obtain ⟨a, hname, hread, rfl⟩ := setOption_eq_ok_iff.mp h
    exact ⟨a, ⟨hname, fun q ↦ setOption_eq_ok_iff.mpr ⟨a, hname, hread, rfl⟩⟩, rfl⟩
  · rintro ⟨a, ha, rfl⟩
    exact ha.sets q

/-! ### What a list of options sets -/

/-- The item is an option. Blank items are passed over. -/
def isGiven (item : List Char) : Bool := !(Text.trim item).isEmpty

/-- The item is read as an option that makes the setting. -/
def ItemMakes (ctx : Context) (nested : List Char → Except QueryError Query) (scope : Scope)
    (item : List Char) (a : Setting) : Prop :=
  ∃ name value, splitOption scope item = .ok (name, value) ∧ Makes ctx nested name value a

/-- The options make the settings, each of an option of its own that has not been seen before. -/
structure ItemsMake (ctx : Context) (nested : List Char → Except QueryError Query) (scope : Scope)
    (seen : List String) (items : List (List Char)) (as : List Setting) : Prop where
  makes : List.Forall₂ (ItemMakes ctx nested scope) (items.filter isGiven) as
  nodup : (as.map Setting.option).Nodup
  unseen : ∀ a ∈ as, a.option ∉ seen

private theorem ItemsMake.nil (seen : List String) : ItemsMake ctx nested scope seen [] [] :=
  ⟨.nil, List.nodup_nil, nofun⟩

/-- A blank item sets nothing. -/
theorem itemsMake_cons_blank {seen : List String} {item : List Char} {items : List (List Char)}
    {as : List Setting} (h : isGiven item = false) :
    ItemsMake ctx nested scope seen (item :: items) as ↔
      ItemsMake ctx nested scope seen items as := by
  have hfilter : (item :: items).filter isGiven = items.filter isGiven :=
    List.filter_cons_of_neg (Bool.eq_false_iff.mp h)
  constructor
  · rintro ⟨makes, nodup, unseen⟩
    exact ⟨hfilter ▸ makes, nodup, unseen⟩
  · rintro ⟨makes, nodup, unseen⟩
    exact ⟨hfilter.symm ▸ makes, nodup, unseen⟩

/-- Any other item makes the first setting, and its name counts as seen for the others. -/
theorem itemsMake_cons {seen : List String} {item : List Char} {items : List (List Char)}
    {as : List Setting} (h : isGiven item = true) :
    ItemsMake ctx nested scope seen (item :: items) as ↔
      ∃ a more, ItemMakes ctx nested scope item a ∧ a.option ∉ seen ∧
        ItemsMake ctx nested scope (a.option :: seen) items more ∧ as = a :: more := by
  have hfilter : (item :: items).filter isGiven = item :: items.filter isGiven :=
    List.filter_cons_of_pos h
  constructor
  · rintro ⟨makes, nodup, unseen⟩
    rw [hfilter] at makes
    obtain ⟨a, more, ha, hmore, rfl⟩ := List.forall₂_cons_left_iff.mp makes
    rw [List.map_cons, List.nodup_cons] at nodup
    refine ⟨a, more, ha, unseen a List.mem_cons_self, ⟨hmore, nodup.2, ?_⟩, rfl⟩
    intro b hb
    rw [List.mem_cons, not_or]
    constructor
    · intro hab
      exact nodup.1 (hab ▸ List.mem_map_of_mem hb)
    · exact unseen b (List.mem_cons_of_mem a hb)
  · rintro ⟨a, more, ha, hunseen, ⟨makes, nodup, unseen⟩, rfl⟩
    refine ⟨hfilter ▸ .cons ha makes, ?_, ?_⟩
    · rw [List.map_cons, List.nodup_cons]
      refine ⟨fun hmem ↦ ?_, nodup⟩
      obtain ⟨b, hb, hab⟩ := List.mem_map.mp hmem
      exact unseen b hb (hab ▸ List.mem_cons_self)
    · intro b hb hmem
      rcases List.mem_cons.mp hb with rfl | hb
      · exact hunseen hmem
      · exact unseen b hb (List.mem_cons_of_mem _ hmem)

/-- A list of options is read exactly if they make settings of different options, and the query has
these: by induction on the list, with the query and the names seen before it. -/
theorem readItems_eq_ok_iff {items : List (List Char)} {q q' : Query} {seen : List String} :
    readItems ctx nested scope q seen items = .ok q' ↔
      ∃ as, ItemsMake ctx nested scope seen items as ∧ q' = as.foldl assign q := by
  induction items generalizing q seen with
  | nil =>
    constructor
    · rintro ⟨⟩
      exact ⟨[], .nil seen, rfl⟩
    · rintro ⟨as, ⟨makes, -, -⟩, rfl⟩
      cases makes
      rfl
  | cons item items ih =>
    rw [readItems_cons_eq_ok]
    cases hitem : isGiven item with
    | false =>
      have hblank : (Text.trim item).isEmpty = true := by simpa [isGiven] using hitem
      simp only [hblank, itemsMake_cons_blank hitem, ih, true_and, Bool.true_eq_false, false_and,
        or_false]
    | true =>
      have hblank : (Text.trim item).isEmpty = false := by simpa [isGiven] using hitem
      simp only [hblank, itemsMake_cons hitem, ih, true_and, Bool.false_eq_true, false_and,
        false_or]
      constructor
      · rintro ⟨name, value, q₁, hsplit, hseen, hset, as, has, rfl⟩
        obtain ⟨a, ha, rfl⟩ := exists_makes_iff.mp hset
        obtain rfl := ha.option_eq
        exact ⟨a :: as, ⟨a, as, ⟨_, value, hsplit, ha⟩, hseen, has, rfl⟩, rfl⟩
      · rintro ⟨_, ⟨a, more, ⟨name, value, hsplit, ha⟩, hseen, hmore, rfl⟩, rfl⟩
        obtain rfl := ha.option_eq
        exact ⟨_, value, q.assign a, hsplit, hseen, ha.sets q, more, hmore, rfl⟩

/-! ### Rearranged lists -/

/-- Rearranged options make the same settings in another order. -/
theorem ItemsMake.perm {seen : List String} {items arranged : List (List Char)} {as : List Setting}
    (h : ItemsMake ctx nested scope seen items as)
    (hperm : (arranged.filter isGiven).Perm (items.filter isGiven)) :
    ∃ bs, ItemsMake ctx nested scope seen arranged bs ∧ bs.Perm as := by
  obtain ⟨makes, nodup, unseen⟩ := h
  obtain ⟨bs, hbs, hperm⟩ := List.perm_comp_forall₂ hperm makes
  refine ⟨bs, ⟨hbs, ?_, ?_⟩, hperm⟩
  · exact (hperm.map Setting.option).nodup_iff.mpr nodup
  · intro b hb
    exact unseen b (hperm.mem_iff.mp hb)

/-- A list of options that is read is read alike when it is rearranged. -/
theorem readItems_perm {items arranged : List (List Char)} {q q' : Query} {seen : List String}
    (h : readItems ctx nested scope q seen items = .ok q')
    (hperm : (arranged.filter isGiven).Perm (items.filter isGiven)) :
    readItems ctx nested scope q seen arranged = .ok q' := by
  obtain ⟨as, has, rfl⟩ := readItems_eq_ok_iff.mp h
  obtain ⟨bs, hbs, hbsas⟩ := has.perm hperm
  apply readItems_eq_ok_iff.mpr
  exact ⟨bs, hbs, (foldl_assign_perm hbsas hbs.nodup q).symm⟩

/-- A request of options that have no ampersand in them is read from these options. -/
theorem parse_joined (ctx : Context) {items : List (List Char)}
    (h : ∀ s ∈ items, '&' ∉ s ∧ s.head? ≠ some '?') :
    parse ctx (String.ofList (joined '&' items)) =
      readItems ctx (read ctx .expansion) .request empty [] items := by
  by_cases hnil : items = []
  · subst hnil
    rfl
  · have hmark : dropWord? ['?'] (joined '&' items) = none :=
      dropWord?_joined hnil fun s hs ↦ (h s (List.mem_of_mem_head? hs)).2
    have hpieces : Scope.request.pieces (joined '&' items) = .ok items := by
      rw [Scope.pieces, Text.splitAt_joined hnil fun s hs ↦ (h s hs).1]
    rw [parse_eq_read, String.toList_ofList, hmark, Option.getD_none, read_eq, hpieces, ok_bind]

/-- A blank text neither cuts a list of options nor begins with a question mark. -/
theorem fit_of_blank {s : List Char} (h : Text.trim s = []) : '&' ∉ s ∧ s.head? ≠ some '?' := by
  constructor
  · intro hmem
    exact Text.trim_ne_nil hmem (by decide) h
  · intro hmark
    exact Text.trim_ne_nil (List.mem_of_mem_head? hmark) (by decide) h

end Query

/-- The options of a request may be given in any order, with blank items anywhere among them: a
request that is read is read as the same query, and a request that fails fails. -/
theorem options_read_in_any_order (ctx : Context) (items blanks arranged : List (List Char))
    (hitems : ∀ s ∈ items, '&' ∉ s ∧ s.head? ≠ some '?') (hblanks : ∀ s ∈ blanks, Text.trim s = [])
    (harranged : arranged.Perm (items ++ blanks)) :
    (∀ q, Query.parse ctx (String.ofList (Query.joined '&' items)) = .ok q →
      Query.parse ctx (String.ofList (Query.joined '&' arranged)) = .ok q) ∧
    (∀ e, Query.parse ctx (String.ofList (Query.joined '&' items)) = .error e →
      ∃ e', Query.parse ctx (String.ofList (Query.joined '&' arranged)) = .error e') := by
  have hfit : ∀ s ∈ arranged, '&' ∉ s ∧ s.head? ≠ some '?' := by
    intro s hs
    rcases List.mem_append.mp (harranged.mem_iff.mp hs) with hs | hs
    · exact hitems s hs
    · exact Query.fit_of_blank (hblanks s hs)
  have hnone : blanks.filter Query.isGiven = [] := by
    apply List.filter_eq_nil_iff.mpr
    intro s hs
    simp [Query.isGiven, hblanks s hs]
  have hperm : (arranged.filter Query.isGiven).Perm (items.filter Query.isGiven) := by
    have hfilter := harranged.filter Query.isGiven
    rwa [List.filter_append, hnone, List.append_nil] at hfilter
  rw [Query.parse_joined ctx hitems, Query.parse_joined ctx hfit]
  constructor
  · intro q hq
    exact Query.readItems_perm hq hperm
  · intro e he
    cases hread : Query.readItems ctx (Query.read ctx .expansion) .request .empty [] arranged with
    | error e' => exact ⟨e', rfl⟩
    | ok q =>
      -- the rearrangement can be undone, so the list would have been read
      have hback := Query.readItems_perm hread hperm.symm
      rw [he] at hback
      cases hback

/-- The theorem at options that change places with blank items between them, and at an option that
is given twice. -/
theorem museum_options_read_in_any_order :
    Query.parse Museum.context "&$expand=room($top=5;$skip=1)& &$filter=notes eq 'a;b'" =
      .ok Museum.notesWithRoom ∧
    ∃ e, Query.parse Museum.context "$top=6&&$top=5" = .error e := by
  have hread : Query.parse Museum.context "$filter=notes eq 'a;b'&$expand=room($top=5;$skip=1)" =
      .ok Museum.notesWithRoom := by decide +kernel
  have htwice : Query.parse Museum.context "$top=5&$top=6" = .error (.duplicateOption "$top") := by
    decide +kernel
  constructor
  · have harranged := options_read_in_any_order Museum.context
      ["$filter=notes eq 'a;b'".toList, "$expand=room($top=5;$skip=1)".toList] [[], [' ']]
      [[], "$expand=room($top=5;$skip=1)".toList, [' '], "$filter=notes eq 'a;b'".toList]
      (by decide) (by decide) (by decide)
    exact harranged.1 _ hread
  · have harranged := options_read_in_any_order Museum.context
      ["$top=5".toList, "$top=6".toList] [[]] ["$top=6".toList, [], "$top=5".toList]
      (by decide) (by decide) (by decide)
    exact harranged.2 _ htwice

end SensorQuery
