import SensorQuery.Proofs.Path.Written

/-!
# Indices behind slashes

A path stays the same when an index in brackets is written as a segment of its own. What a segment
is read as up to its indices does not depend on what follows (`Segment.exists_head_of_scan`), so the
segments in front of an index are read as they are with any text behind them, or with none. And
digits are resolved as an index wherever an index in brackets is (`Resolution.steps_slashed`).
-/

namespace SensorQuery

namespace Scanner

variable {ε α β : Type}

/-- The text begins as the other one does, or it is empty. -/
def BeginsAs (t rest : List Char) : Prop := ∀ c ∈ t.head?, c ∈ rest.head?

private theorem BeginsAs.cons (c : Char) (t rest : List Char) : BeginsAs (c :: t) (c :: rest) :=
  fun _ hd ↦ hd

private theorem BeginsAs.append {t rest : List Char} (h : BeginsAs t rest) (w : List Char) :
    BeginsAs (w ++ t) (w ++ rest) := by
  cases w with
  | nil => exact h
  | cons c w => exact .cons c _ _

private theorem Stops.of_beginsAs {p : Char → Bool} {t rest : List Char} (h : Stops p rest)
    (ht : BeginsAs t rest) : Stops p t := fun c hc ↦ h c (ht c hc)

/-- What the scanner finds depends on the text that it reads and on the character behind it. -/
def Settles (p : Scanner ε α) : Prop :=
  ∀ ⦃s a rest⦄, p s = .found a rest →
    ∃ w, s = w ++ rest ∧ ∀ t, BeginsAs t rest → p (w ++ t) = .found a t

namespace Settles

/-- An answer without reading settles at once. -/
protected theorem pure (a : α) : Settles (pure a : Scanner ε α) := by
  intro s b rest h
  cases h
  exact ⟨[], rfl, fun t _ ↦ rfl⟩

/-- A sequence settles if its parts do. -/
protected theorem bind {p : Scanner ε α} {f : α → Scanner ε β} (hp : Settles p)
    (hf : ∀ a, Settles (f a)) : Settles (p >>= f) := by
  intro s b rest h
  obtain ⟨a, mid, ha, hb⟩ := bind_eq_found.mp h
  obtain ⟨v, rfl, hv⟩ := hp ha
  obtain ⟨w, rfl, hw⟩ := hf a hb
  refine ⟨v ++ w, (List.append_assoc _ _ _).symm, fun t ht ↦ ?_⟩
  rw [List.append_assoc, bind_found (hv _ (ht.append w))]
  exact hw t ht

/-- A given text settles where it ends. -/
protected theorem exactly (w : List Char) : Settles (exactly w : Scanner ε Unit) :=
  fun _ _ _ h ↦ ⟨w, exactly_eq_found.mp h, fun t _ ↦ exactly_append w t⟩

/-- A run settles where it ends. -/
protected theorem run1 (p : Char → Bool) : Settles (run1 p : Scanner ε (List Char)) := by
  intro s w rest h
  obtain ⟨rfl, hne, hw, hstops⟩ := run1_eq_found.mp h
  exact ⟨w, rfl, fun t ht ↦ run1_append hne hw (hstops.of_beginsAs ht)⟩

/-- Two alternatives that begin differently. -/
protected theorem orElse {p q : Scanner ε α} (hp : Settles p) (hq : Settles q)
    (hmissed : ∀ {s a rest}, q s = .found a rest → p s = .missed) : Settles (orElse p q) := by
  intro s a rest h
  rcases orElse_eq_found.mp h with h | ⟨-, h⟩
  · obtain ⟨w, rfl, hw⟩ := hp h
    exact ⟨w, rfl, fun t ht ↦ orElse_found (hw t ht)⟩
  · obtain ⟨w, rfl, hw⟩ := hq h
    exact ⟨w, rfl, fun t ht ↦ (orElse_missed (hmissed (hw t ht))).trans (hw t ht)⟩

private theorem chain {p : Scanner ε α} (hp : Settles p) {as : List α} {s rest : List Char}
    (h : Chain p as s rest) :
    ∃ w, s = w ++ rest ∧ ∀ t, BeginsAs t rest → Chain p as (w ++ t) t := by
  induction h with
  | nil s => exact ⟨[], rfl, fun t _ ↦ .nil t⟩
  | cons head _ ih =>
    obtain ⟨w, rfl, hw⟩ := ih
    obtain ⟨v, rfl, hv⟩ := hp head
    refine ⟨v ++ w, (List.append_assoc _ _ _).symm, fun t ht ↦ ?_⟩
    rw [List.append_assoc]
    exact .cons (hv _ (ht.append w)) (hw t ht)

/-- A repetition finds the same where it still ends. -/
protected theorem many {p : Scanner ε α} (hp : Settles p) (hmoves : Moves p) {as : List α}
    {s rest : List Char} (h : many p s = .found as rest) :
    ∃ w, s = w ++ rest ∧
      ∀ t, BeginsAs t rest → p t = .missed → Scanner.many p (w ++ t) = .found as t := by
  obtain ⟨w, rfl, hw⟩ := hp.chain (chain_of_many h)
  exact ⟨w, rfl, fun t ht hstop ↦ many_of_chain (hw t ht) hstop ((hw t ht).length_le hmoves)⟩

/-- Pieces between two characters are read as they are wherever they end at the second one. -/
theorem exists_of_enclosed {p : Scanner ε α} (hp : Settles p) (hmoves : Moves p) {f : List α → β}
    {first last : Char} {s rest : List Char} {b : β}
    (h : (do char first; let as ← Scanner.many p; char last; pure (f as) : Scanner ε β) s =
      .found b rest) :
    ∃ w, s = first :: w ++ rest ∧ p (last :: rest) = .missed ∧
      ∀ t, p (last :: t) = .missed →
        (do char first; let as ← Scanner.many p; char last; pure (f as) : Scanner ε β)
          (first :: w ++ t) = .found b t := by
  obtain ⟨_, s₁, hfirst, h⟩ := bind_eq_found.mp h
  obtain ⟨as, s₂, hmany, h⟩ := bind_eq_found.mp h
  obtain ⟨_, s₃, hlast, h⟩ := bind_eq_found.mp h
  cases h
  obtain rfl := char_eq_found.mp hfirst
  obtain rfl := char_eq_found.mp hlast
  have hstop := missed_of_many hmoves hmany (List.cons_ne_nil _ _)
  obtain ⟨w, rfl, hw⟩ := hp.many hmoves hmany
  refine ⟨w ++ [last], by simp, hstop, fun t ht ↦ ?_⟩
  rw [List.cons_append, List.append_assoc, List.singleton_append, bind_found (char_cons first _),
    bind_found (hw (last :: t) (.cons _ _ _) ht)]
  exact bind_found (char_cons last t)

/-- No more is left than there was. -/
theorem length_le {p : Scanner ε α} (hp : Settles p) {s rest : List Char} {a : α}
    (h : p s = .found a rest) : rest.length ≤ s.length := by
  obtain ⟨w, rfl, -⟩ := hp h
  rw [List.length_append]
  omega

end Settles

end Scanner

open Fallible Scanner

namespace Segment

variable {ε : Type}

/-! ### Keys -/

private theorem settles_quotedPiece : Settles (quotedPiece : Scanner ε (List Char)) := by
  refine .orElse (.bind (.exactly _) fun _ ↦ .pure _) (.run1 _) ?_
  intro s w rest h
  obtain ⟨rfl, hne, hw, -⟩ := run1_eq_found.mp h
  obtain ⟨c, w, rfl⟩ := List.exists_cons_of_ne_nil hne
  refine bind_missed (exactly_missed_of_stops ((stops_cons _ _ _).mpr ?_))
  simpa using hw c List.mem_cons_self

private theorem moves_quotedPiece : Moves (quotedPiece : Scanner ε (List Char)) :=
  .orElse ((moves_exactly (by simp)).bind_left (Settles.pure _).length_le) (moves_run1 _)

private theorem settles_scanQuoted : Settles (scanQuoted : Scanner ε (List Char)) := by
  intro s w rest h
  obtain ⟨v, rfl, hstop, hv⟩ := settles_quotedPiece.exists_of_enclosed moves_quotedPiece h
  have hrest : Stops (· == '\'') rest := by
    refine (stops_or_exists '\'' rest).resolve_right ?_
    rintro ⟨r, rfl⟩
    rw [quotedPiece_quotes r] at hstop
    cases hstop
  exact ⟨'\'' :: v, rfl, fun t ht ↦ hv t (quotedPiece_missed (hrest.of_beginsAs ht))⟩

private theorem moves_scanQuoted : Moves (scanQuoted : Scanner ε (List Char)) := by
  intro s w rest h
  obtain ⟨v, rfl, -, -⟩ := settles_quotedPiece.exists_of_enclosed moves_quotedPiece h
  simp only [List.cons_append, List.length_cons, List.length_append]
  omega

private theorem settles_keyPiece : Settles (orElse scanQuoted
    (run1 fun c ↦ c != ')' && c != '\'') : Scanner ε (List Char)) := by
  refine .orElse settles_scanQuoted (.run1 _) ?_
  intro s w rest h
  obtain ⟨rfl, hne, hw, -⟩ := run1_eq_found.mp h
  obtain ⟨c, w, rfl⟩ := List.exists_cons_of_ne_nil hne
  refine bind_missed (char_missed ((stops_cons _ _ _).mpr ?_))
  have hc := hw c List.mem_cons_self
  rw [Bool.and_eq_true] at hc
  simpa using hc.2

private theorem exists_text_of_scanKey {s rest : List Char} {key : String}
    (h : (scanKey : Scanner ε String) s = .found key rest) :
    ∃ w, s = '(' :: w ++ rest ∧
      ∀ t, (scanKey : Scanner ε String) ('(' :: w ++ t) = .found key t := by
  obtain ⟨w, rfl, -, hw⟩ :=
    settles_keyPiece.exists_of_enclosed (moves_scanQuoted.orElse (moves_run1 _)) h
  exact ⟨w, rfl, fun t ↦ hw t (keyPiece_missed t)⟩

/-! ### Segments -/

private theorem moves_scanIndex : Moves (scanIndex : Scanner ε UInt64) := by
  intro s i rest h
  obtain ⟨ds, rfl, -⟩ := exists_digits_of_scanIndex h
  simp only [List.length_cons, List.length_append]
  omega

private theorem many_scanIndex_eq_found {is : List UInt64} {s rest : List Char} :
    (many scanIndex : Scanner ε (List UInt64)) s = .found is rest ↔
      Chain (scanIndex : Scanner ε UInt64) is s rest ∧
        (scanIndex : Scanner ε UInt64) rest = .missed :=
  many_eq_found_iff moves_scanIndex (bind_missed (char_missed (stops_nil _)))

private theorem exists_of_chain_scanIndex {is : List UInt64} {s rest : List Char}
    (h : Chain (scanIndex : Scanner ε UInt64) is s rest) :
    ∃ u, s = u ++ rest ∧ WritesIndices u is := by
  obtain ⟨u, is, rfl, hu, rfl⟩ := WritesIndices.exists_of_chain (f := id)
    (fun h ↦ (exists_digits_of_scanIndex h).imp fun _ ⟨hs, hdigits⟩ ↦ ⟨_, hs, rfl, hdigits⟩) h
  exact ⟨u, rfl, by rwa [List.map_id]⟩

/-- The text goes on with an index or another segment, or ends. -/
def GoesOn (t : List Char) : Prop := ∀ c ∈ t.head?, c = '[' ∨ c = '/'

private theorem GoesOn.stops {t : List Char} (h : GoesOn t) {p : Char → Bool}
    (hbracket : p '[' = false)
    (hslash : p '/' = false) : Stops p t := by
  intro c hc
  rcases h c hc with rfl | rfl
  · exact hbracket
  · exact hslash

private theorem goesOn_bracket (t : List Char) : GoesOn ('[' :: t) := by
  simp [GoesOn]

private theorem goesOn_of_stops {t : List Char} (h : Stops (· != '/') t) : GoesOn t :=
  fun c hc ↦ .inr (by simpa using h c hc)

private theorem WritesIndices.goesOn {u t : List Char} {is : List UInt64} (h : WritesIndices u is)
    (ht : GoesOn t) : GoesOn (u ++ t) := by
  cases h with
  | nil => exact ht
  | cons => exact goesOn_bracket _

/-- The text is read as the name and the key of the segment, with the indices behind it. -/
def Heads (v : List Char) (segment : Segment) : Prop :=
  ∀ ⦃t is rest⦄, GoesOn t → (many scanIndex : Scanner Empty (List UInt64)) t = .found is rest →
    (scan : Scanner Empty Segment) (v ++ t) = .found ⟨segment.name, segment.key, is⟩ rest

/-- A segment is read as a name and a key, which do not depend on what follows, and indices. -/
theorem exists_head_of_scan {s rest : List Char} {segment : Segment}
    (h : (scan : Scanner Empty Segment) s = .found segment rest) :
    ∃ v u, s = '/' :: v ++ (u ++ rest) ∧ WritesIndices u segment.indices ∧
      Heads ('/' :: v) segment := by
  obtain ⟨_, s₁, hslash, h⟩ := bind_eq_found.mp h
  obtain ⟨name, s₂, hname, h⟩ := bind_eq_found.mp h
  obtain ⟨key, s₃, hkey, h⟩ := bind_eq_found.mp h
  obtain ⟨is, s₄, his, h⟩ := bind_eq_found.mp h
  cases h
  obtain rfl := char_eq_found.mp hslash
  obtain ⟨rfl, hne, hclass, -⟩ := run1_eq_found.mp hname
  obtain ⟨u, rfl, hu⟩ := exists_of_chain_scanIndex (chain_of_many his)
  obtain ⟨k, rfl, hk⟩ : ∃ k, s₂ = k ++ (u ++ rest) ∧ ∀ t, GoesOn t →
      optional scanKey (k ++ t) = (.found key t : Scan Empty (Option String)) ∧
        Stops isNameChar (k ++ t) := by
    rcases optional_eq_found.mp hkey with ⟨word, rfl, hword⟩ | ⟨rfl, -, rfl⟩
    · obtain ⟨k, rfl, hk⟩ := exists_text_of_scanKey hword
      exact ⟨'(' :: k, rfl, fun t _ ↦
        ⟨optional_found (hk t), (stops_cons _ _ _).mpr (by decide)⟩⟩
    · exact ⟨[], rfl, fun t ht ↦
        ⟨optional_missed (bind_missed (char_missed (ht.stops (by decide) (by decide)))),
          ht.stops (by decide) (by decide)⟩⟩
  refine ⟨name ++ k, u, by simp, hu, fun t is rest ht hmany ↦ ?_⟩
  obtain ⟨hoptional, hstops⟩ := hk t ht
  unfold scan
  rw [List.cons_append, bind_found (char_cons '/' _), List.append_assoc,
    bind_found (run1_append hne hclass hstops), bind_found hoptional, bind_found hmany]
  rfl

/-- A head is read with the indices that are written behind it. -/
theorem Heads.scan_written {v u t : List Char} {segment : Segment} (hv : Heads v segment)
    (hu : WritesIndices u segment.indices) (ht : Stops (· != '/') t) :
    (scan : Scanner Empty Segment) (v ++ (u ++ t)) = .found segment t :=
  hv (hu.goesOn (goesOn_of_stops ht)) (hu.many_scanIndex (ht.of_ne (by decide)))

private theorem moves_scan : Moves (scan : Scanner Empty Segment) := by
  intro s segment rest h
  obtain ⟨v, u, rfl, -, -⟩ := exists_head_of_scan h
  simp only [List.length_cons, List.length_append]
  omega

private theorem stops_of_chain {segments : List Segment} {s rest : List Char}
    (h : Chain (scan : Scanner Empty Segment) segments s rest) (hrest : Stops (· != '/') rest) :
    Stops (· != '/') s := by
  refine h.stops (fun s segment mid hs ↦ ?_) hrest
  obtain ⟨v, u, rfl, -, -⟩ := exists_head_of_scan hs
  exact (stops_cons _ _ _).mpr (by decide)

/-! ### Paths -/

private theorem scan_missed {s : List Char} (h : Stops (· == '/') s) :
    (scan : Scanner Empty Segment) s = .missed := bind_missed (char_missed h)

/-- A path is read as the segments that its text falls apart into. -/
theorem ofPath?_eq_some {path : String} {segments : List Segment} :
    ofPath? path = some segments ↔
      segments ≠ [] ∧ Chain (scan : Scanner Empty Segment) segments path.toList [] := by
  unfold ofPath?
  rw [whole?_eq_some]
  constructor
  · intro h
    obtain ⟨s, _, hs, h⟩ := bind_eq_found.mp h
    obtain ⟨others, _, hothers, h⟩ := bind_eq_found.mp h
    cases h
    exact ⟨List.cons_ne_nil _ _, .cons hs (chain_of_many hothers)⟩
  · rintro ⟨hne, hchain⟩
    generalize path.toList = s at hchain ⊢
    cases hchain with
    | nil => exact absurd rfl hne
    | cons head tail =>
      have hmany := (many_eq_found_iff moves_scan (scan_missed (stops_nil _))).mpr
        ⟨tail, scan_missed (stops_nil _)⟩
      rw [bind_found head, bind_found hmany]
      rfl

/-- Segments in front of others are read in front of any text that another segment begins. -/
theorem exists_front_of_chain {init others : List Segment} {s : List Char}
    (h : Chain (scan : Scanner Empty Segment) (init ++ others) s []) :
    ∃ front back, s = front ++ back ∧ Chain (scan : Scanner Empty Segment) others back [] ∧
      ∀ t, Stops (· != '/') t → Chain (scan : Scanner Empty Segment) init (front ++ t) t := by
  induction init generalizing s with
  | nil => exact ⟨[], s, rfl, h, fun t _ ↦ .nil t⟩
  | cons segment init ih =>
    rw [List.cons_append] at h
    cases h with
    | cons head tail =>
      obtain ⟨front, back, rfl, hback, hfront⟩ := ih tail
      obtain ⟨v, u, rfl, hu, hv⟩ := exists_head_of_scan head
      refine ⟨'/' :: v ++ (u ++ front), back, by simp, hback, fun t ht ↦ ?_⟩
      rw [List.append_assoc, List.append_assoc]
      exact .cons (hv.scan_written hu (stops_of_chain (hfront t ht) ht)) (hfront t ht)

/-- A segment of a path stands behind those in front of it, which are read in front of its head
whatever comes behind that. -/
theorem exists_parts_of_chain {init others : List Segment} {segment : Segment} {s : List Char}
    (h : Chain (scan : Scanner Empty Segment) (init ++ segment :: others) s []) :
    ∃ front v u back, s = front ++ ('/' :: v ++ (u ++ back)) ∧ WritesIndices u segment.indices ∧
      Heads ('/' :: v) segment ∧ Chain (scan : Scanner Empty Segment) others back [] ∧
      ∀ t, Chain (scan : Scanner Empty Segment) init (front ++ ('/' :: v ++ t))
        ('/' :: v ++ t) := by
  obtain ⟨front, back, rfl, hback, hfront⟩ := exists_front_of_chain h
  cases hback with
  | cons head tail =>
    obtain ⟨v, u, rfl, hu, hv⟩ := exists_head_of_scan head
    exact ⟨front, v, u, _, rfl, hu, hv, tail,
      fun t ↦ hfront _ ((stops_cons _ _ _).mpr (by decide))⟩

/-! ### Indices -/

private theorem WritesIndices.exists_of_append {u : List Char} {is more : List UInt64} {i : UInt64}
    (h : WritesIndices u (is ++ i :: more)) :
    ∃ u₁ ds u₂, u = u₁ ++ '[' :: ds ++ ']' :: u₂ ∧ WritesIndices u₁ is ∧
      ∀ c ∈ ds, c.isDigit = true := by
  induction is generalizing u with
  | nil =>
    cases h with
    | @cons ds u₂ _ _ _ digits _ _ => exact ⟨[], ds, u₂, rfl, .nil, digits⟩
  | cons j is ih =>
    cases h with
    | @cons ds _ _ _ ne_nil digits number tail =>
      obtain ⟨u₁, ds', u₂, rfl, hu₁, digits'⟩ := ih tail
      exact ⟨_, ds', u₂, by simp, .cons ne_nil digits number hu₁, digits'⟩

/-- Every index of a path stands in brackets behind whole segments: those in front of it, and its
own with the indices before. -/
theorem exists_front {path : String} {init others : List Segment} {segment : Segment} {i : UInt64}
    {more : List UInt64}
    (h : ofPath? path = some
      (init ++ ⟨segment.name, segment.key, segment.indices ++ i :: more⟩ :: others)) :
    ∃ front ds back, path = String.ofList (front ++ '[' :: ds ++ ']' :: back) ∧
      (∀ c ∈ ds, c.isDigit = true) ∧ ofPath? (String.ofList front) = some (init ++ [segment]) := by
  obtain ⟨-, hchain⟩ := ofPath?_eq_some.mp h
  obtain ⟨front, v, u, back, hpath, hu, hv, -, hinit⟩ := exists_parts_of_chain hchain
  obtain ⟨u₁, ds, u₂, rfl, hu₁, hdigits⟩ := hu.exists_of_append
  refine ⟨front ++ ('/' :: v ++ u₁), ds, u₂ ++ back, ?_, hdigits, ?_⟩
  · rw [← String.ofList_toList (s := path), hpath]
    simp
  · have hhead : Heads ('/' :: v) segment := hv
    have hlast := hhead.scan_written hu₁ (stops_nil _)
    rw [List.append_nil] at hlast
    refine ofPath?_eq_some.mpr ⟨by simp, ?_⟩
    rw [String.toList_ofList]
    exact (hinit u₁).append (.cons hlast (.nil _))

private theorem exists_of_chain_bracket {ds back rest : List Char} {is : List UInt64}
    (hdigits : ∀ c ∈ ds, c.isDigit = true) (hrest : Stops (· != '/') rest)
    (h : Chain (scanIndex : Scanner Empty UInt64) is ('[' :: ds ++ ']' :: back) rest) :
    ∃ i more, is = i :: more ∧ Numeral.uint64? ds = some i ∧ ds ≠ [] ∧
      Chain (scanIndex : Scanner Empty UInt64) more back rest := by
  cases h with
  | nil => exact absurd ((stops_cons _ _ _).mp hrest) (by decide)
  | @cons i more _ mid _ head tail =>
    obtain ⟨ds', heq, hne, hdigits', hnumber⟩ := exists_digits_of_scanIndex head
    have heq : ds ++ ']' :: back = ds' ++ ']' :: mid := by simpa using heq
    obtain rfl := run_unique hdigits hdigits' ((stops_cons _ _ _).mpr (by decide))
      ((stops_cons _ _ _).mpr (by decide)) heq
    obtain rfl : back = mid := by simpa using heq
    exact ⟨i, more, rfl, hnumber, hne, tail⟩

private theorem scan_digits {ds back rest : List Char} (hne : ds ≠ [])
    (hdigits : ∀ c ∈ ds, c.isDigit = true) {is : List UInt64}
    (his : Chain (scanIndex : Scanner Empty UInt64) is back rest) (hrest : Stops (· != '/') rest) :
    (scan : Scanner Empty Segment) ('/' :: ds ++ back) =
      .found ⟨String.ofList ds, none, is⟩ rest := by
  obtain ⟨u, rfl, hu⟩ := exists_of_chain_scanIndex his
  have hword : RawStep.IsWord ds :=
    .inr ⟨hne, fun c hc ↦ RawStep.isNameChar_of_isDigit c (hdigits c hc)⟩
  have hread := WrittenStep.reads_text ⟨ds, u, is, hword, hu⟩ rest hrest
  simpa [WrittenStep.text, WrittenStep.segment] using hread

/-- An index behind whole segments can be written as a segment of its own. -/
theorem exists_slashed {front ds back : List Char} {whole segments : List Segment}
    (hfront : ofPath? (String.ofList front) = some whole) (hdigits : ∀ c ∈ ds, c.isDigit = true)
    (h : ofPath? (String.ofList (front ++ '[' :: ds ++ ']' :: back)) = some segments) :
    ∃ init last i more others, Numeral.uint64? ds = some i ∧ ds ≠ [] ∧
      segments = init ++ ⟨last.name, last.key, last.indices ++ i :: more⟩ :: others ∧
        ofPath? (String.ofList (front ++ '/' :: ds ++ back)) =
          some (init ++ last :: ⟨String.ofList ds, none, more⟩ :: others) := by
  obtain ⟨hne, hfront⟩ := ofPath?_eq_some.mp hfront
  obtain ⟨-, hchain⟩ := ofPath?_eq_some.mp h
  rw [String.toList_ofList] at hfront hchain
  obtain ⟨init, last, rfl⟩ := (List.eq_nil_or_concat whole).resolve_left hne
  rw [List.concat_eq_append] at hfront
  obtain ⟨front, v, u, _, rfl, hu, hv, hnil, hinit⟩ := exists_parts_of_chain hfront
  cases hnil
  have htext (t : List Char) : front ++ ('/' :: v ++ (u ++ [])) ++ t =
      front ++ ('/' :: v ++ (u ++ t)) := by simp
  -- The last segment in front is read with the index, and with those behind that.
  obtain ⟨js, rest, hmany⟩ : ∃ js rest, (many scanIndex : Scanner Empty (List UInt64))
      ('[' :: ds ++ ']' :: back) = .found js rest := exists_many (fun _ e ↦ e.elim) _
  obtain ⟨hjs, hstop⟩ := many_scanIndex_eq_found.mp hmany
  have hscan := hv (hu.goesOn (goesOn_bracket _))
    (many_scanIndex_eq_found.mpr ⟨(hu.chain_scanIndex _).append hjs, hstop⟩)
  rw [List.append_assoc, htext] at hchain
  obtain ⟨others, rfl, hothers⟩ :=
    ((hinit _).append (.cons hscan (.nil rest))).exists_of_chain moves_scan hchain
  have hrest := stops_of_chain hothers (stops_nil _)
  obtain ⟨i, more, rfl, hnumber, hne', htail⟩ := exists_of_chain_bracket hdigits hrest hjs
  refine ⟨init, last, i, more, others, hnumber, hne', by simp, ?_⟩
  have hlast : (scan : Scanner Empty Segment) ('/' :: v ++ (u ++ ('/' :: ds ++ back))) =
      .found last ('/' :: ds ++ back) :=
    hv.scan_written hu ((stops_cons _ _ _).mpr (by decide))
  refine ofPath?_eq_some.mpr ⟨by simp, ?_⟩
  rw [String.toList_ofList, List.append_assoc, htext]
  exact (hinit _).append (.cons hlast (.cons (scan_digits hne' hdigits htail hrest) hothers))

end Segment

namespace Resolution

variable {model : Registry} {r r' : Resolution}

private theorem pushIndex_congr {name name' : String} {i : UInt64}
    (h : r.pushIndex name i = .ok r') :
    r.pushIndex name' i = .ok r' := by
  unfold pushIndex at h ⊢
  split at h
  · exact h
  · exact h
  · cases h

private theorem foldlM_pushIndex_congr {name name' : String} {is : List UInt64}
    (h : is.foldlM (pushIndex name) r = .ok r') : is.foldlM (pushIndex name') r = .ok r' := by
  induction is generalizing r with
  | nil => exact h
  | cons i is ih =>
    obtain ⟨mid, hmid, h⟩ := bind_eq_ok.mp h
    exact bind_eq_ok.mpr ⟨mid, pushIndex_congr hmid, ih h⟩

/-- Digits are an index wherever an index in brackets is one. -/
theorem nameStep_of_pushIndex {name digits : String} {i : UInt64}
    (hdigits : indexOfName? digits = some i) (h : r.pushIndex name i = .ok r')
    (is : List UInt64) : r.nameStep model ⟨digits, none, is⟩ = .ok r' := by
  have hpush : r.pushIndex digits i = .ok r' := pushIndex_congr h
  unfold pushIndex at h
  split at h
  · next hplace =>
    cases h
    rw [nameStep, hplace]
    simp only [noKey, anythingStep, hdigits]
    rfl
  · next type hplace =>
    rw [nameStep, hplace]
    simp only [noKey, valueStep, hdigits]
    exact hpush
  · cases h

/-- An index in brackets and those behind it can be resolved as a segment of their own. -/
theorem exists_step_of_step {s : Segment} {digits : String} {i : UInt64}
    (hdigits : indexOfName? digits = some i) {more : List UInt64}
    (h : r.step model ⟨s.name, s.key, s.indices ++ i :: more⟩ = .ok r') :
    ∃ mid, r.step model s = .ok mid ∧ mid.step model ⟨digits, none, more⟩ = .ok r' := by
  obtain ⟨named, hnamed, h⟩ := bind_eq_ok.mp h
  rw [List.foldlM_append] at h
  obtain ⟨mid, hmid, h⟩ := bind_eq_ok.mp h
  obtain ⟨indexed, hindexed, h⟩ := bind_eq_ok.mp h
  exact ⟨mid, bind_eq_ok.mpr ⟨named, hnamed, hmid⟩, bind_eq_ok.mpr ⟨indexed,
    nameStep_of_pushIndex hdigits hindexed more, foldlM_pushIndex_congr h⟩⟩

private theorem suffix_ofName?_digits {digits : String} {i : UInt64}
    (h : indexOfName? digits = some i) : Suffix.ofName? digits = none := by
  unfold Suffix.ofName?
  split
  · next hdigits =>
    rw [hdigits] at h
    cases h
  · split
    · next hdigits =>
      rw [hdigits] at h
      cases h
    · rfl

/-- Segments are resolved alike if an index of one of them is a segment of its own. -/
theorem steps_slashed {s : Segment} {digits : String} {i : UInt64}
    (hdigits : indexOfName? digits = some i) {more : List UInt64} {init others : List Segment}
    {result : Resolution × Option Suffix}
    (h : r.steps model (init ++ ⟨s.name, s.key, s.indices ++ i :: more⟩ :: others) = .ok result) :
    r.steps model (init ++ s :: ⟨digits, none, more⟩ :: others) = .ok result := by
  induction init generalizing r with
  | nil =>
    rw [List.nil_append, steps] at h ⊢
    split at h
    · next suffix hsuffix =>
      obtain ⟨_, hcheck, -⟩ := bind_eq_ok.mp h
      obtain ⟨-, -, hindices, -⟩ := checkSuffix_eq_ok.mp hcheck
      exact absurd hindices (by simp)
    · next hsuffix =>
      obtain ⟨next, hnext, h⟩ := bind_eq_ok.mp h
      obtain ⟨mid, hmid, hnext⟩ := exists_step_of_step hdigits hnext
      rw [hsuffix]
      refine bind_eq_ok.mpr ⟨mid, hmid, ?_⟩
      rw [steps, suffix_ofName?_digits hdigits]
      exact bind_eq_ok.mpr ⟨next, hnext, h⟩
  | cons t init ih =>
    rw [List.cons_append, steps] at h ⊢
    split at h
    · next suffix hsuffix =>
      obtain ⟨_, hcheck, -⟩ := bind_eq_ok.mp h
      obtain ⟨hlast, -⟩ := checkSuffix_eq_ok.mp hcheck
      simp at hlast
    · next hsuffix =>
      obtain ⟨next, hnext, h⟩ := bind_eq_ok.mp h
      exact bind_eq_ok.mpr ⟨next, hnext, ih h⟩

end Resolution

/-- An index in brackets behind whole segments can be written behind a slash, and the path stays the
same. -/
theorem ResourcePath.parse_slashed {model : Registry} {root : String} {version : Version}
    {front digits back : List Char} {p : ResourcePath}
    (hfront : (Segment.ofPath? (String.ofList front)).isSome)
    (hdigits : ∀ c ∈ digits, c.isDigit = true)
    (h : parse model root version (String.ofList (front ++ '[' :: digits ++ ']' :: back)) = .ok p) :
    parse model root version (String.ofList (front ++ '/' :: digits ++ back)) =
      .ok { p with raw := String.ofList (front ++ '/' :: digits ++ back) } := by
  obtain ⟨whole, hwhole⟩ := Option.isSome_iff_exists.mp hfront
  obtain ⟨segments, r, suffix, hpath, hsteps, rfl⟩ := exists_steps_of_parse h
  obtain ⟨init, last, i, more, others, hnumber, hne, rfl, hslashed⟩ :=
    Segment.exists_slashed hwhole hdigits hpath
  have hindex : Resolution.indexOfName? (String.ofList digits) = some i := by
    rw [RawStep.indexOfName?_ofList hne, RawStep.ofName,
      if_pos (List.all_eq_true.mpr hdigits), hnumber]
  exact parse_of_steps hslashed (Resolution.steps_slashed hindex hsteps) root version

end SensorQuery
