import Mathlib.Data.List.Induction
import Mathlib.Data.List.Nodup
import Mathlib.Data.List.Perm.Subperm
import SensorQuery.Proofs.Query.Nested
import SensorQuery.Proofs.Query.Validation

/-!
# Selections as sets

A selection grows path by path (`Select.edited`), and has each path once, in the order in which the
paths were first inserted (`Select.FirstsOf`). Equality of selections only asks whether they have as
many paths, and whether those of the one are among those of the other. As no path stands twice, this
is equality of sets. Neither the equality of queries nor their validation tells equal selections
apart, in whichever query of an expansion they stand (`Query.Replaced`).
-/

namespace SensorQuery

open Fallible

namespace Select

/-- A change to a selection. -/
inductive Edit where
  | insert (p : PropertyPath)
  /-- Repeated results are left out from then on, or no longer. -/
  | mark (distinct : Bool)

/-- The selection after the change. -/
def edit (s : Select) : Edit → Select
  | .insert p => (s.insert p).1
  | .mark distinct => { s with distinct }

/-- The selection after all changes, from the one without paths. -/
def edited (edits : List Edit) : Select := edits.foldl edit empty

/-- The paths that the changes insert, in order and with repeats. -/
def inserted (edits : List Edit) : List PropertyPath :=
  edits.filterMap fun
    | .insert p => some p
    | .mark _ => none

/-- The paths are those of the list, in the order in which they first stand there. As their first
places grow, none stands twice. -/
structure FirstsOf (list paths : List PropertyPath) : Prop where
  mem_iff : ∀ p, p ∈ paths ↔ p ∈ list
  order : paths.Pairwise fun p p' ↦ list.idxOf p < list.idxOf p'

variable {a b : Select} {list : List PropertyPath} {s : Select} {p : PropertyPath}

/-! ### Growth -/

private theorem FirstsOf.nodup {paths : List PropertyPath} (h : FirstsOf list paths) :
    paths.Nodup :=
  h.order.imp fun hlt heq ↦ absurd (congrArg list.idxOf heq) hlt.ne

/-- With one more path in the list, inserting it gives the first places of the longer list. -/
theorem FirstsOf.insert (h : FirstsOf list s.paths) (p : PropertyPath) :
    FirstsOf (list ++ [p]) (s.insert p).1.paths := by
  -- The first places of paths that stand in the list stay.
  have horder : s.paths.Pairwise fun q q' ↦ (list ++ [p]).idxOf q < (list ++ [p]).idxOf q' := by
    refine h.order.imp_of_mem fun {q q'} hq hq' hlt ↦ ?_
    rwa [List.idxOf_append_of_mem ((h.mem_iff q).mp hq),
      List.idxOf_append_of_mem ((h.mem_iff q').mp hq')]
  rcases Query.insert_paths s p with ⟨hsame, hmem⟩ | ⟨hmore, hnew⟩
  · rw [hsame]
    refine ⟨fun q ↦ ?_, horder⟩
    rw [List.mem_append, List.mem_singleton, h.mem_iff]
    exact ⟨.inl, fun hq ↦ hq.elim id fun heq ↦ heq ▸ (h.mem_iff p).mp hmem⟩
  · rw [hmore]
    refine ⟨fun q ↦ by rw [List.mem_append, List.mem_append, h.mem_iff], ?_⟩
    refine List.pairwise_append.mpr ⟨horder, List.pairwise_singleton _ p, fun q hq p' hp' ↦ ?_⟩
    cases List.mem_singleton.mp hp'
    have hlist : p ∉ list := fun hp ↦ hnew ((h.mem_iff p).mpr hp)
    rw [List.idxOf_append_of_mem ((h.mem_iff q).mp hq), List.idxOf_append_of_notMem hlist]
    exact Nat.lt_add_right _ (List.idxOf_lt_length_of_mem ((h.mem_iff q).mp hq))

/-- After any changes, a selection has the paths that were inserted, in the order of their first
insertion. -/
theorem firstsOf_edited (edits : List Edit) : FirstsOf (inserted edits) (edited edits).paths := by
  induction edits using List.reverseRecOn with
  | nil => exact ⟨fun _ ↦ Iff.rfl, .nil⟩
  | append_singleton edits e ih =>
    rw [edited, List.foldl_append, inserted, List.filterMap_append]
    cases e with
    | insert p => exact ih.insert p
    | mark distinct =>
      rw [List.filterMap_cons_none rfl, List.filterMap_nil, List.append_nil]
      exact ih

/-- Inserting says whether the path is new. -/
theorem insert_snd_iff : (s.insert p).2 = true ↔ p ∉ s.paths := by
  unfold insert
  cases h : s.paths.contains p <;> simpa using h

private theorem ofList_eq_edited (paths : List PropertyPath) :
    ofList paths = edited (paths.map .insert) := by
  rw [edited, List.foldl_map]
  rfl

private theorem inserted_map (paths : List PropertyPath) :
    inserted (paths.map .insert) = paths := by
  rw [inserted, List.filterMap_map]
  exact List.filterMap_some

/-! ### Equality -/

/-- If no path of the first selection stands twice, and all of them stand among as many of the
second, these are the same paths. -/
theorem same_iff_perm (ha : a.paths.Nodup) :
    a.same b = true ↔ a.distinct = b.distinct ∧ a.paths.Perm b.paths := by
  simp only [same, Bool.and_eq_true, decide_eq_true_eq, List.all_eq_true, List.contains_iff_mem,
    and_assoc]
  refine and_congr_right fun _ ↦ ⟨?_, ?_⟩
  · rintro ⟨hlength, hsubset⟩
    exact (List.Nodup.subperm ha hsubset).perm_of_length_le hlength.ge
  · intro hperm
    exact ⟨hperm.length_eq, fun p hp ↦ hperm.mem_iff.mp hp⟩

/-- With a path that stands twice, a selection may be equal to one that is not equal to it. -/
example : (⟨[⟨[.primaryKey]⟩, ⟨[.primaryKey]⟩], false⟩ : Select).same
      ⟨[⟨[.primaryKey]⟩, ⟨[.property "name"]⟩], false⟩ = true ∧
    (⟨[⟨[.primaryKey]⟩, ⟨[.property "name"]⟩], false⟩ : Select).same
      ⟨[⟨[.primaryKey]⟩, ⟨[.primaryKey]⟩], false⟩ = false := by decide

private theorem same_iff (ha : a.paths.Nodup) (hb : b.paths.Nodup) :
    a.same b = true ↔ a.distinct = b.distinct ∧ ∀ p, p ∈ a.paths ↔ p ∈ b.paths := by
  rw [same_iff_perm ha, List.perm_ext_iff_of_nodup ha hb]

/-- Equal selections are equal to the same selections. -/
theorem same_congr_left (ha : a.paths.Nodup) (hb : b.paths.Nodup) (h : a.same b = true)
    (s : Select) : a.same s = b.same s := by
  obtain ⟨hdistinct, hperm⟩ := (same_iff_perm ha).mp h
  rw [Bool.eq_iff_iff, same_iff_perm ha, same_iff_perm hb, hdistinct]
  exact and_congr_right fun _ ↦ ⟨hperm.symm.trans, hperm.trans⟩

/-- The same selections are equal to equal selections. -/
theorem same_congr_right (ha : a.paths.Nodup) (h : a.same b = true) (s : Select) :
    s.same a = s.same b := by
  obtain ⟨hdistinct, hperm⟩ := (same_iff_perm ha).mp h
  rw [Bool.eq_iff_iff]
  simp only [same, Bool.and_eq_true, decide_eq_true_eq, List.all_eq_true, List.contains_iff_mem,
    hdistinct, hperm.length_eq, hperm.mem_iff]

end Select

namespace Query

/-- The second query is the first with one selection in the place of another, in the query itself or
in the query of an expansion, at any depth. -/
inductive Replaced (a b : Select) : Query → Query → Prop where
  | here {q : Query} (selects : q.select = a) : Replaced a b q { q with select := b }
  | within {q sub sub' : Query} {path : PropertyPath} {before behind : List (Expand Query)}
    (expands : q.expand = before ++ ⟨path, some sub⟩ :: behind) (h : Replaced a b sub sub') :
    Replaced a b q { q with expand := before ++ ⟨path, some sub'⟩ :: behind }

variable {a b : Select} {q q' : Query}

/-! ### Equality of queries -/

/-- The expansions have one path, and either no queries or equal ones. -/
def SameExpand (x y : Expand Query) : Prop :=
  x.path = y.path ∧ Option.Rel (fun q r ↦ q.same r = true) x.query y.query

/-- Expansions are compared one by one. -/
theorem sameExpands_iff {xs ys : List (Expand Query)} :
    sameExpands xs ys = true ↔ List.Forall₂ SameExpand xs ys := by
  induction xs generalizing ys with
  | nil => cases ys <;> simp [sameExpands]
  | cons x xs ih =>
    cases ys with
    | nil =>
      obtain ⟨_, _ | _⟩ := x <;> simp [sameExpands]
    | cons y ys =>
      obtain ⟨_, _ | _⟩ := x <;> obtain ⟨_, _ | _⟩ := y <;>
        simp [sameExpands, SameExpand, ih, and_assoc]

/-- Elements that are related to the same others can stand for one another in a list. -/
theorem forall₂_congr_at {α β : Type} {R : α → β → Prop} {x y : α} (h : ∀ z, R x z ↔ R y z)
    (before behind : List α) (zs : List β) :
    List.Forall₂ R (before ++ x :: behind) zs ↔ List.Forall₂ R (before ++ y :: behind) zs := by
  induction before generalizing zs with
  | nil => simp only [List.nil_append, List.forall₂_cons_left_iff, h]
  | cons w before ih => simp only [List.cons_append, List.forall₂_cons_left_iff, ih]

/-- Equal to the same queries, from either side. -/
def Interchangeable (q q' : Query) : Prop := ∀ r, q.same r = q'.same r ∧ r.same q = r.same q'

private theorem Interchangeable.select
    (h : ∀ s, q.select.same s = b.same s ∧ s.same q.select = s.same b) :
    Interchangeable q { q with select := b } := by
  obtain ⟨top, skip, count, format, filter, orderBy, select, expand⟩ := q
  rintro ⟨top', skip', count', format', filter', orderBy', select', expand'⟩
  obtain ⟨hleft, hright⟩ := h select'
  simp only [same, hleft, hright, and_self]

private theorem Interchangeable.sameExpand_iff {sub sub' : Query} (h : Interchangeable sub sub')
    (path : PropertyPath) (y : Expand Query) :
    (SameExpand ⟨path, some sub⟩ y ↔ SameExpand ⟨path, some sub'⟩ y) ∧
      (SameExpand y ⟨path, some sub⟩ ↔ SameExpand y ⟨path, some sub'⟩) := by
  obtain ⟨_, _ | r⟩ := y
  · simp [SameExpand]
  · simp [SameExpand, (h r).1, (h r).2]

private theorem Interchangeable.sameExpands {sub sub' : Query} (h : Interchangeable sub sub')
    (before behind : List (Expand Query)) (path : PropertyPath) (es : List (Expand Query)) :
    sameExpands (before ++ ⟨path, some sub⟩ :: behind) es =
        sameExpands (before ++ ⟨path, some sub'⟩ :: behind) es ∧
      sameExpands es (before ++ ⟨path, some sub⟩ :: behind) =
        sameExpands es (before ++ ⟨path, some sub'⟩ :: behind) := by
  constructor
  · rw [Bool.eq_iff_iff, sameExpands_iff, sameExpands_iff]
    exact forall₂_congr_at (fun y ↦ (h.sameExpand_iff path y).1) before behind es
  · rw [Bool.eq_iff_iff, sameExpands_iff, sameExpands_iff]
    have hflip := forall₂_congr_at (R := flip SameExpand)
      (fun y ↦ (h.sameExpand_iff path y).2) before behind es
    exact ⟨fun hes ↦ (hflip.mp hes.flip).flip, fun hes ↦ (hflip.mpr hes.flip).flip⟩

private theorem Interchangeable.expand {sub sub' : Query} (h : Interchangeable sub sub')
    {before behind : List (Expand Query)} {path : PropertyPath}
    (hexpand : q.expand = before ++ ⟨path, some sub⟩ :: behind) :
    Interchangeable q { q with expand := before ++ ⟨path, some sub'⟩ :: behind } := by
  obtain ⟨top, skip, count, format, filter, orderBy, select, expand⟩ := q
  obtain rfl : expand = before ++ ⟨path, some sub⟩ :: behind := hexpand
  rintro ⟨top', skip', count', format', filter', orderBy', select', expand'⟩
  obtain ⟨hleft, hright⟩ := h.sameExpands before behind path expand'
  simp only [same, hleft, hright, and_self]

/-- Equality of queries does not tell equal selections apart, wherever they stand. -/
theorem Replaced.interchangeable (h : Replaced a b q q')
    (hsame : ∀ s, a.same s = b.same s ∧ s.same a = s.same b) : Interchangeable q q' := by
  induction h with
  | here selects => exact .select (selects ▸ hsame)
  | within expands _ ih => exact ih.expand expands

/-! ### Validation -/

/-- Whether a query can be asked of a type depends on which paths are selected, not on their order,
wherever they stand. -/
theorem Replaced.validate_iff (h : Replaced a b q q') (hpaths : ∀ p, p ∈ a.paths ↔ p ∈ b.paths)
    (model : Registry) (t : EntityType) :
    q.validate model t = .ok () ↔ q'.validate model t = .ok () := by
  induction h generalizing t with
  | @here q selects =>
    obtain ⟨top, skip, count, format, filter, orderBy, select, expand⟩ := q
    cases selects
    simp only [validate, checkPaths, check_bind_eq_ok, forM_eq_ok, hpaths]
  | @within q sub sub' path before behind expands _ ih =>
    obtain ⟨top, skip, count, format, filter, orderBy, select, expand⟩ := q
    obtain rfl : expand = before ++ ⟨path, some sub⟩ :: behind := expands
    simp only [validate, check_bind_eq_ok, validateExpands_eq_ok_iff, List.forall_mem_append,
      List.forall_mem_cons, Option.mem_some_iff, forall_eq', ih]

end Query

open Select in
/-- After any insertions, a selection has the distinct paths that were inserted, in the order of
their first insertion, and inserting says whether a path is new. Two selections are equal exactly if
both or neither leave out repeated results and they have the same paths, which makes equality an
equivalence. With an equal selection in the place of one, anywhere in a query, the query is equal to
the same queries as before, and can be asked of the same types. -/
theorem selections_are_sets :
    (∀ edits, FirstsOf (inserted edits) (edited edits).paths ∧
      ∀ p, ((edited edits).insert p).2 = true ↔ p ∉ inserted edits) ∧
    (∀ paths, ofList paths = edited (paths.map .insert) ∧
      inserted (paths.map .insert) = paths) ∧
    (∀ edits edits', (edited edits).same (edited edits') = true ↔
      (edited edits).distinct = (edited edits').distinct ∧
        ∀ p, p ∈ (edited edits).paths ↔ p ∈ (edited edits').paths) ∧
    (Equivalence fun edits edits' ↦ (edited edits).same (edited edits') = true) ∧
    ∀ edits edits', (edited edits).same (edited edits') = true →
      ∀ q q', Query.Replaced (edited edits) (edited edits') q q' →
        (∀ r, q.same r = q'.same r ∧ r.same q = r.same q') ∧
        ∀ model t, q.validate model t = .ok () ↔ q'.validate model t = .ok () := by
  have hnodup (edits : List Edit) : (edited edits).paths.Nodup := (firstsOf_edited edits).nodup
  have hsame (edits edits' : List Edit) := same_iff (hnodup edits) (hnodup edits')
  refine ⟨fun edits ↦ ⟨firstsOf_edited edits, fun p ↦ ?_⟩,
    fun paths ↦ ⟨ofList_eq_edited paths, inserted_map paths⟩, hsame, ⟨?_, ?_, ?_⟩, ?_⟩
  · rw [insert_snd_iff, (firstsOf_edited edits).mem_iff]
  · exact fun edits ↦ (hsame edits edits).mpr ⟨rfl, fun _ ↦ Iff.rfl⟩
  · intro edits edits' h
    obtain ⟨hdistinct, hpaths⟩ := (hsame edits edits').mp h
    exact (hsame edits' edits).mpr ⟨hdistinct.symm, fun p ↦ (hpaths p).symm⟩
  · intro edits edits' edits'' h h'
    exact (same_congr_left (hnodup edits) (hnodup edits') h _).trans h'
  · intro edits edits' h q q' hreplaced
    have hpaths := ((hsame edits edits').mp h).2
    exact ⟨hreplaced.interchangeable fun s ↦
      ⟨same_congr_left (hnodup edits) (hnodup edits') h s, same_congr_right (hnodup edits) h s⟩,
      hreplaced.validate_iff hpaths⟩

namespace Museum

/-- The paths that the tour selects of exhibits, in order. -/
def selecting : List Select.Edit :=
  [.insert ⟨[.property "sizes", .index 0]⟩, .insert ⟨[.navigation "room"]⟩]

/-- The same paths in another order, one of them twice. -/
def selectingAgain : List Select.Edit :=
  [.insert ⟨[.navigation "room"]⟩, .mark true, .insert ⟨[.property "sizes", .index 0]⟩,
    .insert ⟨[.navigation "room"]⟩, .mark false]

end Museum

/-- The theorem at the selection in an expansion. -/
theorem museum_tour_selects_in_any_order :
    (Select.edited Museum.selecting).same (Select.edited Museum.selectingAgain) = true ∧
      ∃ q, Query.Replaced (.edited Museum.selecting) (.edited Museum.selectingAgain)
          Museum.tour q ∧
        Museum.tour.same q = true ∧ q.validate Museum.model Museum.room = .ok () := by
  have hsame : (Select.edited Museum.selecting).same (Select.edited Museum.selectingAgain) =
      true := by decide
  obtain ⟨-, -, -, -, hreplaced⟩ := selections_are_sets
  have htour := Query.Replaced.within (show Museum.tour.expand = [] ++ _ :: [] from rfl)
    (.here (a := .edited Museum.selecting) (b := .edited Museum.selectingAgain) rfl)
  obtain ⟨hequal, hvalid⟩ := hreplaced _ _ hsame _ _ htour
  refine ⟨hsame, _, htour, ?_, (hvalid Museum.model Museum.room).mp (by decide +kernel)⟩
  rw [← (hequal Museum.tour).2]
  decide +kernel

end SensorQuery
