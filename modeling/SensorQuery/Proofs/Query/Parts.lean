import SensorQuery.Proofs.Query.Nested

/-!
# What a query that is read is made of

Every part of a query that is read was read from a text of its own, in the query itself and in the
queries of its expansions at any depth. An expansion has one hop of a path that was read, since a
path over several entities becomes several expansions inside one another.
-/

namespace SensorQuery.Query

open Fallible

/-- The parts of the query itself were read. The queries of its expansions do not count. -/
structure PartsRead (ctx : Context) (q : Query) : Prop where
  filter : ∀ e ∈ q.filter, ∃ t, Expression.parse ctx t = .ok e
  orderBy : q.orderBy = [] ∨ ∃ t, Order.parse ctx t = .ok q.orderBy
  select : q.select = .empty ∨ ∃ v, parseSelect ctx v = .ok q.select
  expand : ∀ x ∈ q.expand, ∃ t p, PropertyPath.parse ctx t = .ok p ∧ x.path ∈ p.hops

variable {ctx : Context} {nested : List Char → Except QueryError Query}

-- The expansion has a hop of a path that was read, and the parts of all its queries were read.
private def ExpandRead (ctx : Context) (x : Expand Query) : Prop :=
  (∃ t p, PropertyPath.parse ctx t = .ok p ∧ x.path ∈ p.hops) ∧
    ∀ sub ∈ x.query, ∀ q ∈ sub.all, q.PartsRead ctx

private theorem partsRead_of_expand {es : List (Expand Query)} (h : ∀ x ∈ es, ExpandRead ctx x) :
    ∀ q' ∈ all { empty with expand := es }, q'.PartsRead ctx :=
  forall_all_iff.mpr
    ⟨⟨nofun, .inl rfl, .inl rfl, fun x hx ↦ (h x hx).1⟩, fun x hx ↦ (h x hx).2⟩

private theorem expandRead_nestExpand {t : String} {p : PropertyPath}
    (hp : PropertyPath.parse ctx t = .ok p) {hops : List PropertyPath} (hne : hops ≠ [])
    (hhops : ∀ hop ∈ hops, hop ∈ p.hops) {query : Option Query}
    (hquery : ∀ sub ∈ query, ∀ q ∈ sub.all, q.PartsRead ctx) :
    ExpandRead ctx (nestExpand hops query) := by
  induction hops with
  | nil => exact absurd rfl hne
  | cons hop hops ih =>
    obtain ⟨hhop, hmore⟩ := List.forall_mem_cons.mp hhops
    cases hops with
    | nil => exact ⟨⟨t, p, hp, hhop⟩, hquery⟩
    | cons hop' hops =>
      refine ⟨⟨t, p, hp, hhop⟩, ?_⟩
      rintro _ ⟨⟩
      exact partsRead_of_expand
        (List.forall_mem_singleton.mpr (ih (List.cons_ne_nil hop' hops) hmore))

private theorem expandRead_of_parseExpand
    (hnested : ∀ s q, nested s = .ok q → ∀ q' ∈ q.all, q'.PartsRead ctx) {value : List Char}
    {es : List (Expand Query)} (h : parseExpand ctx nested value = .ok es) :
    ∀ x ∈ es, ExpandRead ctx x := by
  obtain ⟨parts, -, h⟩ := bind_eq_ok.mp h
  intro x hx
  obtain ⟨item, -, hitem⟩ := exists_of_mapM h x hx
  obtain ⟨_, _, inner, p, query, -, -, hp, hquery, rfl⟩ := parseExpandItem_eq_ok.mp hitem
  refine expandRead_nestExpand hp (PropertyPath.isHop_of_parse hp).1 (fun _ h ↦ h) ?_
  intro sub hsub
  obtain ⟨s, -, hs⟩ := exists_of_parseNested hquery hsub
  exact hnested s sub hs

private theorem partsRead_of_setOption
    (hnested : ∀ s q, nested s = .ok q → ∀ q' ∈ q.all, q'.PartsRead ctx) {q q' : Query}
    {name : String} {value : List Char} (hq : ∀ r ∈ q.all, r.PartsRead ctx)
    (h : setOption ctx nested q name value = .ok q') : ∀ r ∈ q'.all, r.PartsRead ctx := by
  obtain ⟨⟨filter, orderBy, select, expand⟩, hsubs⟩ := forall_all_iff.mp hq
  rw [forall_all_iff]
  cases setsPart_of_setOption h with
  | filter _ read =>
    refine ⟨⟨?_, orderBy, select, expand⟩, hsubs⟩
    rintro _ ⟨⟩
    exact ⟨_, read⟩
  | orderBy _ read => exact ⟨⟨filter, .inr ⟨_, read⟩, select, expand⟩, hsubs⟩
  | select _ read => exact ⟨⟨filter, orderBy, .inr ⟨_, read⟩, expand⟩, hsubs⟩
  | expand _ read =>
    have hread := expandRead_of_parseExpand hnested read
    exact ⟨⟨filter, orderBy, select, fun x hx ↦ (hread x hx).1⟩, fun x hx ↦ (hread x hx).2⟩
  | other => exact ⟨⟨filter, orderBy, select, expand⟩, hsubs⟩

private theorem partsRead_of_readItems
    (hnested : ∀ s q, nested s = .ok q → ∀ q' ∈ q.all, q'.PartsRead ctx) {scope : Scope}
    {items : List (List Char)} {q q' : Query} {seen : List String}
    (hq : ∀ r ∈ q.all, r.PartsRead ctx) (h : readItems ctx nested scope q seen items = .ok q') :
    ∀ r ∈ q'.all, r.PartsRead ctx := by
  induction items generalizing q seen with
  | nil =>
    cases h
    exact hq
  | cons item items ih =>
    rcases readItems_cons_eq_ok.mp h with ⟨-, h⟩ | ⟨-, name, value, set, -, -, hset, h⟩
    · exact ih hq h
    · exact ih (partsRead_of_setOption hnested hq hset) h

-- Whatever is read at any depth is made of what was read: by induction on the depth.
private theorem partsRead_of_parseOptions {depth : Nat} {scope : Scope} {s : List Char} {q : Query}
    (h : parseOptions ctx depth scope s = .ok q) : ∀ q' ∈ q.all, q'.PartsRead ctx := by
  induction depth generalizing scope s q with
  | zero => cases h
  | succ depth ih =>
    obtain ⟨items, -, h⟩ := bind_eq_ok.mp h
    have hempty : ∀ q' ∈ (empty : Query).all, q'.PartsRead ctx := partsRead_of_expand nofun
    exact partsRead_of_readItems (fun _ _ ↦ ih) hempty h

/-- A query that is read, and all queries in it, are made of what was read. -/
theorem partsRead_of_parse {t : String} {q : Query} (h : parse ctx t = .ok q) :
    ∀ q' ∈ q.all, q'.PartsRead ctx := partsRead_of_parseOptions h

end SensorQuery.Query
