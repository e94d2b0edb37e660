import SensorQuery.Proofs.Path.Selected
import SensorQuery.Proofs.Query.Expanded
import SensorQuery.Proofs.Query.SingleHop

/-!
# Expansions in a row

An expansion over several entities is written with slashes between the hops, or hop by hop with each
expansion in the parentheses of the one before it. Both are read as the same expansions: behind a
hop the classifier stands at an entity again, as it does at the front of a path.
-/

namespace SensorQuery

open Fallible

namespace PropertyPath

variable {ctx : Context} {front more : List PathStep} {last : PathStep}

/-! ### Paths of one hop -/

private theorem exists_of_endsInHop {p : PropertyPath} (hfront : p.HopsLast) (hlast : p.EndsInHop) :
    ∃ front last, p.steps = front ++ [last] ∧ (∀ s ∈ front, s.isHop = false) ∧
      last.isHop = true := by
  obtain ⟨last, hmem, hhop⟩ := hlast
  obtain ⟨front, hsteps⟩ := List.getLast?_eq_some_iff.mp hmem
  have hdrop : p.steps.dropLast = front := by rw [hsteps, List.dropLast_concat]
  exact ⟨front, last, hsteps, hdrop ▸ hfront.2, hhop⟩

/-- Steps are cut behind the first that leads to an entity. -/
theorem hopsOf_append (hfront : ∀ s ∈ front, s.isHop = false) (hlast : last.isHop = true)
    (more : List PathStep) : hopsOf (front ++ last :: more) = (front ++ [last]) :: hopsOf more := by
  induction front with
  | nil => rw [List.nil_append, hopsOf, if_pos hlast, List.nil_append]
  | cons s front ih =>
    obtain ⟨hs, hfront⟩ := List.forall_mem_cons.mp hfront
    rw [List.cons_append, hopsOf, if_neg (by simp [hs]), ih hfront, List.cons_append]

/-- A hop in front of a path is the first of its hops. -/
theorem hops_append {p : PropertyPath} (hfront : p.HopsLast) (hlast : p.EndsInHop)
    (more : List PathStep) : hops ⟨p.steps ++ more⟩ = p :: hops ⟨more⟩ := by
  obtain ⟨front, last, hsteps, hsteps', hhop⟩ := exists_of_endsInHop hfront hlast
  have hcut := hopsOf_append hsteps' hhop more
  rw [hops, hsteps, List.append_assoc, List.singleton_append, hcut, List.map_cons, ← hsteps]
  rfl

private theorem eq_nil_of_classify {position : Position} {raws : List RawStep}
    (h : classify ctx position raws = .ok []) : raws = [] := by
  cases raws with
  | nil => rfl
  | cons raw raws =>
    obtain ⟨_, _, -, -, hsteps⟩ := classify_cons h
    cases hsteps

/-- Behind a hop, steps are sorted as they are at the front of a path. -/
theorem classify_append {position : Position} {raws raws' : List RawStep}
    (h : classify ctx position raws = .ok (front ++ [last])) (hlast : last.isHop = true)
    (hmore : classify ctx .entity raws' = .ok more) :
    classify ctx position (raws ++ raws') = .ok (front ++ last :: more) := by
  induction raws generalizing position front with
  | nil => simp [classify] at h
  | cons raw raws ih =>
    obtain ⟨p, rest, hstep, hrest, hsteps⟩ := classify_cons h
    cases front with
    | nil =>
      obtain ⟨rfl, rfl⟩ := List.cons.inj hsteps
      rw [eq_nil_of_classify hrest]
      rw [← position_of_isHop hstep hlast] at hmore
      exact classify_of_step hstep hmore
    | cons s front =>
      obtain ⟨rfl, rfl⟩ := List.cons.inj hsteps
      exact classify_of_step hstep (ih hrest)

-- A path without blanks around it is made of steps.
private theorem exists_texts_of_edged {t : List Char} {p : PropertyPath} (ht : Text.Edged t)
    (hp : parse ctx (String.ofList t) = .ok p) : ∃ first others, RawStep.IsFirst first.name ∧
      t = first.text ++ WrittenStep.texts others ∧
        classify ctx .entity ((first :: others).flatMap WrittenStep.raws) = .ok p.steps := by
  have hwhite (c : Char) (hc : Text.isBlank c = false) : c.isWhitespace = false := by
    rw [← Bool.not_eq_true] at hc ⊢
    exact fun hwhite ↦ hc (Text.isBlank_of_isWhitespace c hwhite)
  have hfront : Scanner.Stops Char.isWhitespace (String.ofList t).toList := by
    rw [String.toList_ofList]
    exact fun c hc ↦ hwhite c (ht.front c hc)
  have hback : ∀ c ∈ (String.ofList t).toList.getLast?, c.isWhitespace = false := by
    rw [String.toList_ofList]
    exact fun c hc ↦ hwhite c (ht.back c hc)
  obtain ⟨first, others, hfirst, htext, hsorted⟩ := exists_texts_of_parse hfront hback hp
  rw [String.toList_ofList] at htext
  exact ⟨first, others, hfirst, htext, hsorted⟩

/-- A hop and a path with a slash between them are read as the path that goes on behind the hop. -/
theorem parse_slash {h t : List Char} {p q : PropertyPath} (hedged : Text.Edged h)
    (hp : parse ctx (String.ofList h) = .ok p) (hfront : p.HopsLast) (hlast : p.EndsInHop)
    (htedged : Text.Edged t) (hq : parse ctx (String.ofList t) = .ok q) :
    parse ctx (String.ofList (h ++ '/' :: t)) = .ok ⟨p.steps ++ q.steps⟩ := by
  obtain ⟨first, others, hfirst, htext, hsorted⟩ := exists_texts_of_edged hedged hp
  obtain ⟨first', others', -, rfl, hsorted'⟩ := exists_texts_of_edged htedged hq
  obtain ⟨front, last, hsteps, -, hhop⟩ := exists_of_endsInHop hfront hlast
  rw [hsteps] at hsorted ⊢
  have hmore := classify_append hsorted hhop hsorted'
  rw [← List.flatMap_append, List.cons_append] at hmore
  have hparse := parse_texts hfirst (others ++ first' :: others') hmore
  simpa [htext, WrittenStep.texts] using hparse

end PropertyPath

namespace Query

variable {ctx : Context}

/-! ### The two ways to write a row of expansions -/

/-- The hops and the item behind them, with slashes between them. -/
def slashedText (hops : List (List Char)) (item : List Char) : List Char :=
  joined '/' (hops ++ [item])

/-- The item in the parentheses of the last hop, and so on for the hops in front of it. -/
def nestedText (hops : List (List Char)) (item : List Char) : List Char :=
  hops.foldr (fun hop inner ↦ itemText hop (some (expandOption inner))) item

private theorem slashedText_itemText (hops : List (List Char)) (path : List Char)
    (inner : Option (List Char)) :
    slashedText hops (itemText path inner) = itemText (slashedText hops path) inner := by
  cases inner with
  | none => rfl
  | some inner => cases hops <;> simp [slashedText, itemText, joined_cons]

private theorem slashedText_cons (hop : List Char) (hops : List (List Char)) (item : List Char) :
    slashedText (hop :: hops) item = hop ++ '/' :: slashedText hops item := by
  cases hops <;> exact joined_cons_cons '/' hop _ _

private theorem nestExpand_cons (hop : PropertyPath) {hops : List PropertyPath} (hne : hops ≠ [])
    (query : Option Query) : nestExpand (hop :: hops) query =
      ⟨hop, some { empty with expand := [nestExpand hops query] }⟩ := by
  cases hops with
  | nil => exact absurd rfl hne
  | cons hop' hops => rfl

variable {last : List Char} {p : PropertyPath}

/-- The text is a path without blanks around it, and only its last step leads to an entity. -/
def IsHopText (ctx : Context) (hop : List Char) : Prop :=
  Text.trim hop = hop ∧ ∃ p, PropertyPath.parse ctx (String.ofList hop) = .ok p ∧ p.HopsLast ∧
    p.EndsInHop

/-- A hop in front of others is one expansion around theirs, whichever way it is written. -/
theorem exists_of_isHopText {hop t item : List Char} (hhop : IsHopText ctx hop) (ht : Text.Edged t)
    (hp : PropertyPath.parse ctx (String.ofList t) = .ok p) (hitem : IsItem item)
    {query : Option Query} (hread : expansions ctx item = .ok [nestExpand p.hops query]) :
    ∃ p', PropertyPath.parse ctx (String.ofList (hop ++ '/' :: t)) = .ok p' ∧
      IsItem (itemText hop (some (expandOption item))) ∧
        expansions ctx (itemText hop (some (expandOption item))) =
          .ok [nestExpand p'.hops query] := by
  obtain ⟨htrim, q, hq, hfront, hlast⟩ := hhop
  have hhopItem := (isItem_of_parse htrim hq).1
  have hinner : ∀ s ∈ some (expandOption item), Text.Balanced s := by
    rintro _ ⟨⟩
    exact (isItem_expandOption hitem).2
  refine ⟨_, PropertyPath.parse_slash hhopItem.edged hq hfront hlast ht hp,
    isItem_itemText hhopItem hinner, ?_⟩
  have hone : q.hops = [q] := by
    simpa [PropertyPath.hops, PropertyPath.hopsOf] using PropertyPath.hops_append hfront hlast []
  rw [expansions_itemText htrim hq hinner, parseNested_expandOption hitem hread, ok_bind,
    PropertyPath.hops_append hfront hlast, hone,
    nestExpand_cons q (PropertyPath.isHop_of_parse hp).1]
  rfl

/-- Hops in a row are read as the path over all of them, and as the expansions of that path inside
one another: by induction on the hops, from the last to the first. -/
theorem exists_of_hops {hops : List (List Char)} (hhops : ∀ hop ∈ hops, IsHopText ctx hop)
    (hlast : Text.trim last = last)
    (hp : PropertyPath.parse ctx (String.ofList last) = .ok p) {inner : Option (List Char)}
    (hinner : ∀ s ∈ inner, Text.Balanced s) {query : Option Query}
    (hquery : parseNested (read ctx .expansion) inner = .ok query) :
    ∃ p', Text.Edged (slashedText hops last) ∧
      PropertyPath.parse ctx (String.ofList (slashedText hops last)) = .ok p' ∧
        IsItem (nestedText hops (itemText last inner)) ∧
          expansions ctx (nestedText hops (itemText last inner)) =
            .ok [nestExpand p'.hops query] := by
  induction hops with
  | nil =>
    have hitem := (isItem_of_parse hlast hp).1
    have hslashed : slashedText [] last = last := joined_singleton '/' last
    rw [hslashed]
    refine ⟨p, hitem.edged, hp, isItem_itemText hitem hinner, ?_⟩
    rw [nestedText, List.foldr_nil, expansions_itemText hlast hp hinner, hquery]
    rfl
  | cons hop hops ih =>
    obtain ⟨hhop, hhops⟩ := List.forall_mem_cons.mp hhops
    obtain ⟨q, hedged, hq, hitem, hread⟩ := ih hhops
    obtain ⟨p', hp', hitem', hread'⟩ := exists_of_isHopText hhop hedged hq hitem hread
    rw [slashedText_cons]
    obtain ⟨htrim, _, hparse, -⟩ := hhop
    exact ⟨p', (isItem_of_parse htrim hparse).1.edged.around ['/'] hedged, hp', hitem', hread'⟩

end Query

/-- Hops with slashes between them are read as the expansions that nest in their parentheses, behind
them a last path with or without options. Its options are any that are read as one expansion. -/
theorem slashes_expand_as_parentheses (ctx : Context) (hops : List (List Char))
    (hhops : ∀ hop ∈ hops, Query.IsHopText ctx hop) (last : List Char)
    (hlast : Text.trim last = last) (p : PropertyPath)
    (hp : PropertyPath.parse ctx (String.ofList last) = .ok p) (inner : Option (List Char))
    (hinner : ∀ w ∈ inner, ∃ x, Query.expansions ctx (Query.itemText last (some w)) = .ok [x]) :
    ∃ es, Query.expansions ctx (Query.slashedText hops (Query.itemText last inner)) = .ok es ∧
      Query.expansions ctx (Query.nestedText hops (Query.itemText last inner)) = .ok es := by
  have hbalanced : ∀ w ∈ inner, Text.Balanced w := by
    intro w hw
    obtain ⟨x, hx⟩ := hinner w hw
    exact Query.balanced_of_expansions hlast hp hx
  obtain ⟨query, hquery⟩ : ∃ query,
      Query.parseNested (Query.read ctx .expansion) inner = .ok query := by
    cases inner with
    | none => exact ⟨none, rfl⟩
    | some w =>
      obtain ⟨x, hx⟩ := hinner w rfl
      rw [Query.expansions_itemText hlast hp hbalanced] at hx
      obtain ⟨query, hquery, -⟩ := bind_eq_ok.mp hx
      exact ⟨query, hquery⟩
  obtain ⟨q, hedged, hq, -, hread⟩ := Query.exists_of_hops hhops hlast hp hbalanced hquery
  refine ⟨_, ?_, hread⟩
  rw [Query.slashedText_itemText, Query.expansions_itemText hedged.trim hq hbalanced, hquery,
    ok_bind]

/-- The theorem at exhibits of rooms, the rooms that they were seen in, and exhibits of these. -/
theorem museum_slashes_expand_as_parentheses :
    ∃ es, Query.expansions Museum.linkedContext
        "exhibits/notes/seen.Room/exhibits($top=5)".toList = .ok es ∧
      Query.expansions Museum.linkedContext
        "exhibits($expand=notes/seen.Room($expand=exhibits($top=5)))".toList = .ok es := by
  have hexhibits : PropertyPath.parse Museum.linkedContext (String.ofList "exhibits".toList) =
      .ok ⟨[.navigation "exhibits"]⟩ := by decide +kernel
  have hseen : PropertyPath.parse Museum.linkedContext (String.ofList "notes/seen.Room".toList) =
      .ok ⟨[.property "notes", .customLink "seen" "Room"]⟩ := by decide +kernel
  have hhops : ∀ hop ∈ ["exhibits".toList, "notes/seen.Room".toList],
      Query.IsHopText Museum.linkedContext hop := by
    refine List.forall_mem_cons.mpr ⟨⟨by decide, _, hexhibits, ⟨by simp, by simp⟩, ?_⟩,
      List.forall_mem_singleton.mpr ⟨by decide, _, hseen, ⟨by simp, by decide⟩, ?_⟩⟩
    · exact ⟨_, rfl, rfl⟩
    · exact ⟨_, rfl, rfl⟩
  have htop : Query.expansions Museum.linkedContext "exhibits($top=5)".toList =
      .ok [⟨⟨[.navigation "exhibits"]⟩, some { Query.empty with top := some 5 }⟩] := by
    decide +kernel
  exact slashes_expand_as_parentheses Museum.linkedContext _ hhops "exhibits".toList (by decide) _
    hexhibits (some "$top=5".toList) (by rintro _ ⟨⟩; exact ⟨_, htop⟩)

end SensorQuery
