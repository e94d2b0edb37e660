import Mathlib.Algebra.Group.Nat.Even
import Mathlib.Data.List.Induction
import SensorQuery.Proofs.Query.Pieces
import SensorQuery.Proofs.Text.Quoted

/-!
# Parentheses and their partners

A character stands outside quotes behind an even number of them. A parenthesis there and the one
that closes it enclose a text in which everything has its partner (`Nested`). A text is cut at the
top level unless a parenthesis outside quotes has no partner, and then the pieces make up the text,
and each of them is cut alone as it is cut in the text.
-/

namespace SensorQuery.Text

/-- Every quote has its partner, and so has every parenthesis outside quotes. -/
inductive Nested : List Char → Prop where
  | nil : Nested []
  | bare {c : Char} {s : List Char} (hc : isBare c = true) (h : Nested s) : Nested (c :: s)
  | quoted {q s : List Char} (hq : '\'' ∉ q) (h : Nested s) : Nested ('\'' :: (q ++ '\'' :: s))
  | parens {inner s : List Char} (hinner : Nested inner) (h : Nested s) :
    Nested ('(' :: (inner ++ ')' :: s))

/-- A parenthesis outside quotes closes nothing. -/
def ClosesNothing (s : List Char) : Prop :=
  ∃ front back, s = front ++ ')' :: back ∧ Even (front.count '\'') ∧
    ∀ before inner, front = before ++ '(' :: inner → ¬ Nested inner

/-- A parenthesis outside quotes stays open. -/
def StaysOpen (s : List Char) : Prop :=
  ∃ front back, s = front ++ '(' :: back ∧ Even (front.count '\'') ∧
    ∀ inner after, back = inner ++ ')' :: after → ¬ Nested inner

variable {bar : Char → Bool} {place place' : Bool × Nat} {quoted : Bool} {depth : Nat}
  {s t : List Char}

/-! ### Quotes -/

/-- A text leads into or out of quotes exactly if it has an odd number of quotes. -/
theorem even_count_iff_of_walk (h : walk bar place s = some place') :
    Even (s.count '\'') ↔ place'.1 = place.1 := by
  induction s generalizing place with
  | nil =>
    cases h
    simp
  | cons c s ih =>
    rw [walk_cons] at h
    obtain ⟨mid, hstep, h⟩ := Option.bind_eq_some_iff.mp h
    have hmore := ih h
    by_cases hc : c = '\''
    · rw [stepPlace, if_pos hc] at hstep
      cases hstep
      rw [hc, List.count_cons_self, Nat.even_add_one, hmore]
      cases place'.1 <;> cases place.1 <;> simp
    · have hmid : mid.1 = place.1 := by
        unfold stepPlace at hstep
        grind
      rw [List.count_cons_of_ne hc, hmore, hmid]

/-- From inside quotes, a text comes out of them at a quote. -/
theorem exists_quote_of_walk {depth' : Nat} (h : walk bar (true, depth) s = some (false, depth')) :
    ∃ q rest, s = q ++ '\'' :: rest ∧ '\'' ∉ q ∧
      walk bar (false, depth) rest = some (false, depth') := by
  induction s with
  | nil => cases h
  | cons c s ih =>
    by_cases hc : c = '\''
    · subst hc
      exact ⟨[], s, rfl, List.not_mem_nil, h⟩
    · have hstep : stepPlace bar (true, depth) c = some (true, depth) := by simp [stepPlace, hc]
      rw [walk_cons, hstep, Option.bind_some] at h
      obtain ⟨q, rest, rfl, hq, hrest⟩ := ih h
      exact ⟨c :: q, rest, rfl, List.not_mem_cons_of_ne_of_not_mem (Ne.symm hc) hq, hrest⟩

/-! ### Partners -/

private theorem stepPlace_eq_none_iff {c : Char} :
    stepPlace (fun _ ↦ false) place c = none ↔ place = (false, 0) ∧ c = ')' := by
  obtain ⟨b, d⟩ := place
  unfold stepPlace
  grind

/-- A text leads nowhere exactly if a parenthesis in it closes nothing. -/
theorem walk_eq_none_iff : walk (fun _ ↦ false) place s = none ↔
    ∃ front back, s = front ++ ')' :: back ∧
      walk (fun _ ↦ false) place front = some (false, 0) := by
  constructor
  · intro h
    induction s generalizing place with
    | nil => cases h
    | cons c s ih =>
      cases hstep : stepPlace (fun _ ↦ false) place c with
      | none =>
        obtain ⟨rfl, rfl⟩ := stepPlace_eq_none_iff.mp hstep
        exact ⟨[], s, rfl, rfl⟩
      | some p =>
        rw [walk_cons, hstep, Option.bind_some] at h
        obtain ⟨front, back, rfl, hfront⟩ := ih h
        exact ⟨c :: front, back, rfl, by rw [walk_cons, hstep, Option.bind_some, hfront]⟩
  · rintro ⟨front, back, rfl, hfront⟩
    rw [walk_append, hfront]
    rfl

/-- A text that leads out of a parenthesis closes it. -/
theorem exists_close_of_walk {b : Bool} {k d d' : Nat}
    (h : walk (fun _ ↦ false) (b, k + d + 1) s = some (quoted, d')) (hd : d' ≤ d) :
    ∃ inner after, s = inner ++ ')' :: after ∧
      walk (fun _ ↦ false) (b, k) inner = some (false, 0) ∧
      walk (fun _ ↦ false) (false, d) after = some (quoted, d') := by
  cases hwalk : walk (fun _ ↦ false) (b, k) s with
  | some p =>
    -- Within the parenthesis the text would not come below its depth.
    have hshift := walk_shift hwalk (k := d + 1) (.inr rfl)
    rw [← Nat.add_assoc, h, Option.some.injEq, Prod.mk.injEq] at hshift
    omega
  | none =>
    obtain ⟨inner, after, rfl, hinner⟩ := walk_eq_none_iff.mp hwalk
    have hshift := walk_shift hinner (k := d + 1) (.inr rfl)
    rw [← Nat.add_assoc] at hshift
    rw [walk_append, hshift, Option.bind_some, walk_cons] at h
    exact ⟨inner, after, rfl, hinner, by simpa [stepPlace] using h⟩

-- A character within a parenthesis either opens it, or leads on within it.
private theorem stepPlace_unshift {c : Char} {k d : Nat}
    (h : stepPlace (fun _ ↦ false) place c = some (quoted, k + d + 1)) :
    (place = (false, d) ∧ c = '(' ∧ quoted = false ∧ k = 0) ∨
      ∃ k', place.2 = k' + d + 1 ∧
        stepPlace (fun _ ↦ false) (place.1, k') c = some (quoted, k) := by
  obtain ⟨b, e⟩ := place
  unfold stepPlace at h ⊢
  by_cases hopen : b = false ∧ c = '('
  · obtain ⟨rfl, rfl⟩ := hopen
    cases k with
    | zero => grind
    | succ k => exact .inr ⟨k, by grind, by grind⟩
  by_cases hclose : b = false ∧ c = ')'
  · obtain ⟨rfl, rfl⟩ := hclose
    exact .inr ⟨k + 1, by grind, by grind⟩
  · exact .inr ⟨k, by grind, by grind⟩

/-- A text that leads into a parenthesis opens it. -/
theorem exists_open_of_walk {k d : Nat}
    (h : walk (fun _ ↦ false) place s = some (quoted, k + d + 1)) (hd : place.2 ≤ d) :
    ∃ front back, s = front ++ '(' :: back ∧
      walk (fun _ ↦ false) place front = some (false, d) ∧
      walk (fun _ ↦ false) (false, 0) back = some (quoted, k) := by
  -- From the end of the text, as the parenthesis is the last that leads to this depth.
  induction s using List.reverseRecOn generalizing quoted k with
  | nil =>
    cases h
    omega
  | append_singleton s c ih =>
    rw [walk_append] at h
    obtain ⟨p, hp, hstep⟩ := Option.bind_eq_some_iff.mp h
    rw [walk_cons] at hstep
    obtain ⟨p', hstep, heq⟩ := Option.bind_eq_some_iff.mp hstep
    cases heq
    rcases stepPlace_unshift hstep with ⟨rfl, rfl, rfl, rfl⟩ | ⟨k', hdepth, hback⟩
    · exact ⟨s, [], rfl, hp, rfl⟩
    · obtain ⟨b, e⟩ := p
      cases hdepth
      obtain ⟨front, back, rfl, hfront, hmore⟩ := ih hp
      refine ⟨front, back ++ [c], by simp, hfront, ?_⟩
      rw [walk_append, hmore, Option.bind_some, walk_cons, hback]
      rfl

/-! ### Nested texts -/

/-- What has its partners in a text is closed by it. -/
theorem Nested.balanced (h : Nested s) : Balanced s := by
  induction h with
  | nil => rfl
  | bare hc _ ih =>
    rw [Balanced, Sealed, walk_cons, stepPlace_bare hc false (.inl rfl), Option.bind_some]
    exact ih
  | @quoted q s hq _ ih =>
    have hquote := sealed_quote (fun _ ↦ false) q
    rw [quote, doubled_of_not_mem hq] at hquote
    simpa [Balanced] using hquote.append ih
  | @parens inner s _ _ hinner ih =>
    have hinside : walk (fun _ ↦ false) (false, 1) inner = some (false, 1) :=
      hinner.walk (.inr rfl)
    simpa [Balanced] using (sealed_parens hinside).append ih

/-- What a text closes has its partners in it. -/
theorem nested_of_balanced (h : Balanced s) : Nested s := by
  induction hn : s.length using Nat.strongRecOn generalizing s with
  | ind n ih =>
    subst hn
    cases s with
    | nil => exact .nil
    | cons c s =>
      rw [Balanced, Sealed, walk_cons] at h
      obtain ⟨p, hp, h⟩ := Option.bind_eq_some_iff.mp h
      by_cases hbare : isBare c = true
      · cases (stepPlace_bare hbare false (.inl rfl)).symm.trans hp
        exact .bare hbare (ih s.length (by simp) h rfl)
      have hmark : c = '\'' ∨ c = '(' ∨ c = ')' := by
        simpa only [isBare, Bool.not_eq_true', Bool.not_eq_false, List.contains_iff_mem,
          List.mem_cons, List.not_mem_nil, or_false] using hbare
      rcases hmark with rfl | rfl | rfl
      · cases hp
        obtain ⟨q, rest, rfl, hq, hrest⟩ := exists_quote_of_walk h
        have hlength : rest.length < ('\'' :: (q ++ '\'' :: rest)).length := by
          simp only [List.length_cons, List.length_append]
          omega
        exact .quoted hq (ih rest.length hlength hrest rfl)
      · cases hp
        obtain ⟨inner, after, rfl, hinner, hafter⟩ :=
          exists_close_of_walk (k := 0) h (Nat.le_refl 0)
        have hlength : ('(' :: (inner ++ ')' :: after)).length =
            inner.length + after.length + 2 := by
          simp only [List.length_cons, List.length_append]
          omega
        exact .parens (ih inner.length (by omega) hinner rfl)
          (ih after.length (by omega) hafter rfl)
      · cases hp

private theorem outside_of_even (h : walk bar (false, 0) s = some place)
    (heven : Even (s.count '\'')) : place = (false, place.2) :=
  Prod.ext ((even_count_iff_of_walk h).mp heven) rfl

/-! ### Parentheses without partners -/

private theorem closesNothing_iff : ClosesNothing s ↔ walk (fun _ ↦ false) (false, 0) s = none := by
  rw [walk_eq_none_iff]
  constructor
  · rintro ⟨front, back, rfl, heven, hfront⟩
    cases hwalk : walk (fun _ ↦ false) (false, 0) front with
    | none =>
      obtain ⟨inner, more, rfl, hinner⟩ := walk_eq_none_iff.mp hwalk
      exact ⟨inner, more ++ ')' :: back, by simp, hinner⟩
    | some place =>
      rw [outside_of_even hwalk heven] at hwalk
      cases hdepth : place.2 with
      | zero => exact ⟨front, back, rfl, by rw [hwalk, hdepth]⟩
      | succ d =>
        rw [hdepth] at hwalk
        obtain ⟨before, inner, rfl, -, hinner⟩ :=
          exists_open_of_walk (k := 0) (d := d) (by rwa [Nat.zero_add]) (Nat.zero_le d)
        exact absurd (nested_of_balanced hinner) (hfront before inner rfl)
  · rintro ⟨front, back, rfl, hfront⟩
    refine ⟨front, back, rfl, (even_count_iff_of_walk hfront).mpr rfl, ?_⟩
    rintro before inner rfl hinner
    -- The text leads back to the depth in front of the parenthesis that it leads into.
    have heven : Even (before.count '\'') := by
      have hall := (even_count_iff_of_walk hfront).mpr rfl
      have hin := (even_count_iff_of_walk hinner.balanced).mpr rfl
      rw [List.count_append, List.count_cons_of_ne (by decide), Nat.even_add] at hall
      exact hall.mpr hin
    rw [walk_append] at hfront
    obtain ⟨place, hbefore, h⟩ := Option.bind_eq_some_iff.mp hfront
    rw [outside_of_even hbefore heven, walk_cons] at h
    have hback : walk (fun _ ↦ false) (false, place.2 + 1) inner = some (false, place.2 + 1) :=
      hinner.balanced.walk (.inr rfl)
    simp [stepPlace, hback] at h

private theorem staysOpen_iff (h : walk (fun _ ↦ false) (false, 0) s = some place) :
    StaysOpen s ↔ place.2 ≠ 0 := by
  constructor
  · rintro ⟨front, back, rfl, heven, hback⟩ hzero
    rw [walk_append] at h
    obtain ⟨mid, hfront, h⟩ := Option.bind_eq_some_iff.mp h
    rw [outside_of_even hfront heven, walk_cons] at h
    obtain ⟨inner, after, rfl, hinner, -⟩ := exists_close_of_walk (k := 0)
      (d := mid.2) (by simpa [stepPlace] using h) (by omega)
    exact hback inner after rfl (nested_of_balanced hinner)
  · intro hdepth
    obtain ⟨d, hd⟩ := Nat.exists_eq_succ_of_ne_zero hdepth
    obtain ⟨quoted, _⟩ := place
    cases hd
    obtain ⟨front, back, rfl, hfront, hback⟩ :=
      exists_open_of_walk (k := 0) (d := d) (by rwa [Nat.zero_add]) (Nat.zero_le d)
    refine ⟨front, back, rfl, (even_count_iff_of_walk hfront).mpr rfl, ?_⟩
    rintro inner after rfl hinner
    rw [walk_append, hinner.balanced] at hback
    cases hback

/-- A text is cut unless a parenthesis outside quotes has no partner. -/
theorem splitTopLevel_eq_none_iff {sep : Char} :
    splitTopLevel sep s = none ↔ ClosesNothing s ∨ StaysOpen s := by
  rw [closesNothing_iff, ← Option.not_isSome_iff_eq_none, isSome_splitTopLevel]
  cases hwalk : walk (fun _ ↦ false) (false, 0) s with
  | none => simp
  | some place =>
    rw [staysOpen_iff hwalk]
    obtain ⟨quoted, depth⟩ := place
    simp

/-! ### The pieces -/

/-- What a separator follows at the top level is cut there. -/
theorem not_nested_of_walk {sep : Char} (hsep : isBare sep = true) {back : List Char}
    (h : walk (· == sep) (false, 0) (s ++ sep :: back) = some place) : ¬ Nested s := by
  intro hnested
  rw [walk_append] at h
  obtain ⟨mid, hs, h⟩ := Option.bind_eq_some_iff.mp h
  cases hnested.balanced.symm.trans (walk_mono hs (by simp))
  have hcut : stepPlace (· == sep) (false, 0) sep = none := by
    simp only [isBare, Bool.not_eq_true', List.contains_eq_mem, decide_eq_false_iff_not,
      List.mem_cons, List.not_mem_nil, or_false, not_or] at hsep
    simp [stepPlace, hsep]
  rw [walk_cons, hcut] at h
  cases h

/-- Cutting a text at the top level fails exactly if a parenthesis outside quotes closes nothing or
stays open. Else the pieces are what the text is joined from, all but the last close their quotes,
no separator stands in a piece outside quotes and parentheses, and each piece is cut into itself. -/
theorem top_level_cut_is_lossless (sep : Char) (hsep : isBare sep = true) (s : List Char) :
    (splitTopLevel sep s = none ↔ ClosesNothing s ∨ StaysOpen s) ∧
      ∀ pieces, splitTopLevel sep s = some pieces →
        Query.joined sep pieces = s ∧
        (∀ p ∈ pieces.dropLast, Even (p.count '\'')) ∧
        (∀ p ∈ pieces, ∀ front back, p = front ++ sep :: back → ¬ Nested front) ∧
        ∀ p ∈ pieces, splitTopLevel sep p = some [p] := by
  refine ⟨splitTopLevel_eq_none_iff, fun pieces h ↦ ?_⟩
  obtain ⟨-, _, -, hpieces⟩ := walk_of_splitTopLevel h
  refine ⟨joined_of_splitTopLevel h, fun p hp ↦ ?_, ?_, fun p hp ↦ ?_⟩
  · exact (even_count_iff_of_walk (sealed_dropLast_of_splitTopLevel h p hp)).mpr rfl
  · rintro p hp front back rfl
    obtain ⟨_, hwalk, -⟩ := hpieces _ hp
    exact not_nested_of_walk hsep hwalk
  · obtain ⟨_, hwalk, -⟩ := hpieces p hp
    exact splitTopLevel_of_walk hwalk

/-- The theorem at options with separators in quotes and in parentheses, where a quote is written
twice. -/
theorem museum_options_are_cut :
    isBare ';' = true ∧
      splitTopLevel ';' "$filter=name eq 'a;b''(';$expand=rooms($top=1;$skip=2);$count".toList =
        some ["$filter=name eq 'a;b''('".toList, "$expand=rooms($top=1;$skip=2)".toList,
          "$count".toList] ∧
      splitTopLevel ';' "$expand=rooms($top=1;$skip=2)".toList =
        some ["$expand=rooms($top=1;$skip=2)".toList] ∧
      ¬ Nested "$expand=rooms($top=1".toList := by
  have hcut : splitTopLevel ';'
      "$filter=name eq 'a;b''(';$expand=rooms($top=1;$skip=2);$count".toList =
        some ["$filter=name eq 'a;b''('".toList, "$expand=rooms($top=1;$skip=2)".toList,
          "$count".toList] := by decide +kernel
  obtain ⟨-, hpieces⟩ := top_level_cut_is_lossless ';' (by decide)
    "$filter=name eq 'a;b''(';$expand=rooms($top=1;$skip=2);$count".toList
  obtain ⟨-, -, hnested, halone⟩ := hpieces _ hcut
  exact ⟨by decide, hcut, halone _ (by simp),
    hnested "$expand=rooms($top=1;$skip=2)".toList (by simp) _ "$skip=2)".toList (by decide)⟩

end SensorQuery.Text
