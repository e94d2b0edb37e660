import SensorQuery.Query.Query
import SensorQuery.Text.Form
import SensorQuery.Proofs.Scanner

/-!
# Lists that are cut into their items

Texts that are joined with a separator are cut into the same texts again, if no separator stands in
them where the cut looks for one (`walk`). A text without blanks at its ends is not changed by
trimming.
-/

namespace SensorQuery

namespace Query

/-- One text is joined to itself. -/
theorem joined_singleton (separator : Char) (text : List Char) :
    joined separator [text] = text := by
  simp [joined, List.intercalate]

/-- Texts are joined with a separator behind the first. -/
theorem joined_cons_cons (separator : Char) (text more : List Char) (texts : List (List Char)) :
    joined separator (text :: more :: texts) =
      text ++ separator :: joined separator (more :: texts) := by
  simp [joined, List.intercalate]

/-- Every text but the first is joined with the separator in front of it. -/
theorem joined_cons (separator : Char) (text : List Char) (texts : List (List Char)) :
    joined separator (text :: texts) = text ++ texts.flatMap (separator :: ·) := by
  induction texts generalizing text with
  | nil => rw [joined_singleton, List.flatMap_nil, List.append_nil]
  | cons more texts ih =>
    rw [joined_cons_cons, ih, List.flatMap_cons]
    rfl

/-- Joined texts are as long as each of them. -/
theorem length_le_joined {separator : Char} {text : List Char} {texts : List (List Char)}
    (h : text ∈ texts) : text.length ≤ (joined separator texts).length := by
  induction texts with
  | nil => cases h
  | cons first texts ih =>
    cases texts with
    | nil =>
      rw [joined_singleton]
      exact Nat.le_of_eq (congrArg List.length (List.mem_singleton.mp h))
    | cons more texts =>
      rw [joined_cons_cons, List.length_append, List.length_cons]
      rcases List.mem_cons.mp h with rfl | h
      · omega
      · have hmore := ih h
        omega

/-- A character of a join is the separator or stands in one of the texts. -/
theorem mem_joined {separator c : Char} {texts : List (List Char)}
    (h : c ∈ joined separator texts) : c = separator ∨ ∃ s ∈ texts, c ∈ s := by
  cases texts with
  | nil => cases h
  | cons text texts =>
    rw [joined_cons, List.mem_append, List.mem_flatMap] at h
    rcases h with h | ⟨s, hs, h⟩
    · exact .inr ⟨text, List.mem_cons_self, h⟩
    · rcases List.mem_cons.mp h with rfl | h
      · exact .inl rfl
      · exact .inr ⟨s, List.mem_cons_of_mem text hs, h⟩

end Query

namespace Text

/-! ### Every separator -/

private theorem splitAt_append {sep : Char} {s : List Char} (h : sep ∉ s) (rest : List Char) :
    splitAt sep (s ++ sep :: rest) = s :: splitAt sep rest := by
  induction s with
  | nil => rw [List.nil_append, splitAt, if_pos rfl]
  | cons c s ih =>
    have hc := List.ne_of_not_mem_cons h
    have hs := List.not_mem_of_not_mem_cons h
    rw [List.cons_append, splitAt, if_neg (Ne.symm hc), ih hs, pushFront]

private theorem splitAt_of_not_mem {sep : Char} {s : List Char} (h : sep ∉ s) :
    splitAt sep s = [s] := by
  induction s with
  | nil => rfl
  | cons c s ih =>
    have hc := List.ne_of_not_mem_cons h
    have hs := List.not_mem_of_not_mem_cons h
    rw [splitAt, if_neg (Ne.symm hc), ih hs, pushFront]

/-- Texts without separators in them are the pieces of their join. -/
theorem splitAt_joined {sep : Char} {texts : List (List Char)} (hne : texts ≠ [])
    (h : ∀ s ∈ texts, sep ∉ s) : splitAt sep (Query.joined sep texts) = texts := by
  induction texts with
  | nil => exact absurd rfl hne
  | cons s texts ih =>
    obtain ⟨hs, htexts⟩ := List.forall_mem_cons.mp h
    cases texts with
    | nil => rw [Query.joined_singleton, splitAt_of_not_mem hs]
    | cons t texts =>
      rw [Query.joined_cons_cons, splitAt_append hs, ih (List.cons_ne_nil t texts) htexts]

private theorem joined_pushFront (sep c : Char) (pieces : List (List Char)) :
    Query.joined sep (pushFront c pieces) = c :: Query.joined sep pieces := by
  cases pieces with
  | nil => rfl
  | cons piece pieces => rw [pushFront, Query.joined_cons, Query.joined_cons, List.cons_append]

private theorem joined_nil_cons (sep : Char) {pieces : List (List Char)} (hne : pieces ≠ []) :
    Query.joined sep ([] :: pieces) = sep :: Query.joined sep pieces := by
  obtain ⟨piece, pieces, rfl⟩ := List.exists_cons_of_ne_nil hne
  rw [Query.joined_cons_cons, List.nil_append]

private theorem splitAt_ne_nil (sep : Char) (s : List Char) : splitAt sep s ≠ [] := by
  cases s with
  | nil => exact List.cons_ne_nil [] []
  | cons c s =>
    rw [splitAt]
    split
    · exact List.cons_ne_nil _ _
    · cases splitAt sep s <;> exact List.cons_ne_nil _ _

/-- The pieces of a text are those that it is joined from. -/
theorem joined_splitAt (sep : Char) (s : List Char) :
    Query.joined sep (splitAt sep s) = s := by
  induction s with
  | nil => rfl
  | cons c s ih =>
    rw [splitAt]
    split
    · next hc => rw [joined_nil_cons sep (splitAt_ne_nil sep s), ih, hc]
    · rw [joined_pushFront, ih]

/-- A text is cut at the first separator. -/
theorem cutAt?_append {sep : Char} {s : List Char} (h : sep ∉ s) (rest : List Char) :
    cutAt? sep (s ++ sep :: rest) = some (s, rest) := by
  induction s with
  | nil => rw [List.nil_append, cutAt?, if_pos rfl]
  | cons c s ih =>
    have hc := List.ne_of_not_mem_cons h
    have hs := List.not_mem_of_not_mem_cons h
    rw [List.cons_append, cutAt?, if_neg (Ne.symm hc), ih hs]
    rfl

/-- A text without separators is not cut. -/
theorem cutAt?_eq_none {sep : Char} {s : List Char} (h : sep ∉ s) : cutAt? sep s = none := by
  induction s with
  | nil => rfl
  | cons c s ih =>
    have hc := List.ne_of_not_mem_cons h
    have hs := List.not_mem_of_not_mem_cons h
    rw [cutAt?, if_neg (Ne.symm hc), ih hs]
    rfl

/-- The cut is at the first separator. -/
theorem cutAt?_eq_some {sep : Char} {s front back : List Char}
    (h : cutAt? sep s = some (front, back)) : s = front ++ sep :: back ∧ sep ∉ front := by
  induction s generalizing front with
  | nil => cases h
  | cons c s ih =>
    rw [cutAt?] at h
    split at h
    · next hc =>
      cases h
      exact ⟨by rw [hc]; rfl, List.not_mem_nil⟩
    · next hc =>
      obtain ⟨⟨a, b⟩, hab, heq⟩ := Option.map_eq_some_iff.mp h
      cases heq
      obtain ⟨rfl, hmem⟩ := ih hab
      exact ⟨rfl, List.not_mem_cons_of_ne_of_not_mem (Ne.symm hc) hmem⟩

/-- Without plus signs and percent signs, nothing is decoded. -/
theorem formDecode?_eq_self {s : List Char} (h : ∀ c ∈ s, c ≠ '%' ∧ c ≠ '+') :
    formDecode? s = some s := by
  unfold formDecode?
  induction s with
  | nil => rfl
  | cons c s ih =>
    obtain ⟨⟨hpercent, hplus⟩, hs⟩ := List.forall_mem_cons.mp h
    rw [formDecodeFrom, ih hs, Option.map_some, plusAsSpace, if_neg hplus]
    · rfl
    · rintro _ _ _ rfl
      exact absurd rfl hpercent

/-! ### Separators outside quotes and parentheses -/

/-- Where a character leads to: whether it stands in quotes, and in how many parentheses. It leads
nowhere if it closes nothing, or is a bar outside quotes and parentheses. -/
def stepPlace (bar : Char → Bool) (place : Bool × Nat) (c : Char) : Option (Bool × Nat) :=
  if c = '\'' then some (!place.1, place.2)
  else if place.1 then some place
  else if c = '(' then some (false, place.2 + 1)
  else if c = ')' then if place.2 = 0 then none else some (false, place.2 - 1)
  else if bar c ∧ place.2 = 0 then none
  else some place

/-- Where a text leads to. -/
def walk (bar : Char → Bool) (place : Bool × Nat) (s : List Char) : Option (Bool × Nat) :=
  s.foldlM (stepPlace bar) place

/-- The text opens nothing that it does not close, and has no bar outside what it opens. -/
def Sealed (bar : Char → Bool) (s : List Char) : Prop := walk bar (false, 0) s = some (false, 0)

variable {bar : Char → Bool} {place place' : Bool × Nat} {s t : List Char}

/-- A text is walked character by character. -/
theorem walk_cons (bar : Char → Bool) (place : Bool × Nat) (c : Char) (s : List Char) :
    walk bar place (c :: s) = (stepPlace bar place c).bind fun p ↦ walk bar p s := rfl

/-- Texts are walked one after the other. -/
theorem walk_append (bar : Char → Bool) (place : Bool × Nat) (s t : List Char) :
    walk bar place (s ++ t) = (walk bar place s).bind fun p ↦ walk bar p t :=
  List.foldlM_append

private theorem stepPlace_shift {other : Char → Bool} {c : Char}
    (h : stepPlace bar place c = some place') {k : Nat} (hk : k ≠ 0 ∨ other = bar) :
    stepPlace other (place.1, place.2 + k) c = some (place'.1, place'.2 + k) := by
  unfold stepPlace at h ⊢
  grind

/-- Within more parentheses, a text leads to the same place in them, whatever the bars. -/
theorem walk_shift {other : Char → Bool} (h : walk bar place s = some place') {k : Nat}
    (hk : k ≠ 0 ∨ other = bar) :
    walk other (place.1, place.2 + k) s = some (place'.1, place'.2 + k) := by
  induction s generalizing place with
  | nil =>
    cases h
    rfl
  | cons c s ih =>
    obtain ⟨p, hp, hs⟩ := Option.bind_eq_some_iff.mp ((walk_cons bar place c s).symm.trans h)
    rw [walk_cons, stepPlace_shift hp hk, Option.bind_some]
    exact ih hs

private theorem stepPlace_mono {other : Char → Bool} {c : Char}
    (h : stepPlace bar place c = some place') (hbar : ∀ c, other c = true → bar c = true) :
    stepPlace other place c = some place' := by
  have hc := hbar c
  unfold stepPlace at h ⊢
  grind

/-- Fewer bars make no difference to a text that has none. -/
theorem walk_mono {other : Char → Bool} (h : walk bar place s = some place')
    (hbar : ∀ c, other c = true → bar c = true) : walk other place s = some place' := by
  induction s generalizing place with
  | nil => exact h
  | cons c s ih =>
    obtain ⟨p, hp, hs⟩ := Option.bind_eq_some_iff.mp ((walk_cons bar place c s).symm.trans h)
    rw [walk_cons, stepPlace_mono hp hbar, Option.bind_some]
    exact ih hs

/-- A sealed text leads back to where it begins, in any parentheses. -/
theorem Sealed.walk {other : Char → Bool} (h : Sealed bar s) {depth : Nat}
    (hdepth : depth ≠ 0 ∨ other = bar) : walk other (false, depth) s = some (false, depth) := by
  have hshift := walk_shift h hdepth
  rwa [Nat.zero_add] at hshift

/-- Two sealed texts are sealed as one. -/
theorem Sealed.append (hs : Sealed bar s) (ht : Sealed bar t) : Sealed bar (s ++ t) := by
  rw [Sealed, walk_append, hs, Option.bind_some]
  exact ht

/-- A text that is sealed against some separators is sealed against fewer. -/
theorem Sealed.mono {other : Char → Bool} (h : Sealed bar s)
    (hbar : ∀ c, other c = true → bar c = true) : Sealed other s := walk_mono h hbar

/-- The text closes the quotes and parentheses that it opens. -/
def Balanced (s : List Char) : Prop := Sealed (fun _ ↦ false) s

/-- A sealed text closes what it opens. -/
theorem Sealed.balanced (h : Sealed bar s) : Balanced s := h.mono (by simp)

/-- The character neither quotes, nor opens or closes a parenthesis. -/
def isBare (c : Char) : Bool := !(['\'', '(', ')'].contains c)

/-- A blank is no mark that is not blank. -/
theorem ne_of_isBlank {c mark : Char} (hc : isBlank c = true) (hmark : isBlank mark = false) :
    c ≠ mark := by
  rintro rfl
  rw [hmark] at hc
  cases hc

/-- A blank is no quote and no parenthesis. -/
theorem isBare_of_isBlank {c : Char} (hc : isBlank c = true) : isBare c = true := by
  have hquote : c ≠ '\'' := ne_of_isBlank hc (by decide)
  have hopen : c ≠ '(' := ne_of_isBlank hc (by decide)
  have hclose : c ≠ ')' := ne_of_isBlank hc (by decide)
  simp [isBare, hquote, hopen, hclose]

/-- A bare character leads nowhere else, unless it is a separator in the open. -/
theorem stepPlace_bare {c : Char} (hbare : isBare c = true) (quoted : Bool) {depth : Nat}
    (hbar : bar c = false ∨ depth ≠ 0) :
    stepPlace bar (quoted, depth) c = some (quoted, depth) := by
  simp only [isBare, List.contains_iff_mem, Bool.not_eq_true', List.mem_cons, List.not_mem_nil,
    or_false, Bool.eq_false_iff, ne_eq, not_or] at hbare
  unfold stepPlace
  grind

/-- A text without quotes, parentheses and bars stays where it is. -/
theorem walk_bare (h : ∀ c ∈ s, isBare c = true) (quoted : Bool) {depth : Nat}
    (hbar : (∀ c ∈ s, bar c = false) ∨ depth ≠ 0) :
    walk bar (quoted, depth) s = some (quoted, depth) := by
  induction s with
  | nil => rfl
  | cons c s ih =>
    obtain ⟨hc, hs⟩ := List.forall_mem_cons.mp h
    rw [walk_cons, stepPlace_bare hc quoted (hbar.imp_left fun hb ↦ hb c List.mem_cons_self),
      Option.bind_some]
    exact ih hs (hbar.imp_left fun hb ↦ fun d hd ↦ hb d (List.mem_cons_of_mem c hd))

/-- Blanks lead nowhere else. -/
theorem walk_blank (h : ∀ c ∈ s, isBlank c = true) (place : Bool × Nat) :
    walk (fun _ ↦ false) place s = some place :=
  walk_bare (fun c hc ↦ isBare_of_isBlank (h c hc)) place.1 (.inl fun _ _ ↦ rfl)

/-- A text of bare characters without separators is sealed. -/
theorem sealed_of_bare (h : ∀ c ∈ s, isBare c = true ∧ bar c = false) : Sealed bar s :=
  walk_bare (fun c hc ↦ (h c hc).1) false (.inl fun c hc ↦ (h c hc).2)

/-- What stays within one parenthesis is sealed by parentheses. -/
theorem sealed_parens (h : walk bar (false, 1) s = some (false, 1)) :
    Sealed bar ('(' :: s ++ [')']) := by
  rw [Sealed, List.cons_append, walk_cons, show stepPlace bar (false, 0) '(' = some (false, 1)
    from rfl, Option.bind_some, walk_append, h]
  rfl

private theorem walk_doubled (bar : Char → Bool) (depth : Nat) (s : List Char) :
    walk bar (true, depth) (doubled s) = some (true, depth) := by
  induction s with
  | nil => rfl
  | cons c s ih =>
    rw [doubled]
    split
    · exact ih
    · next hc =>
      have hstep : stepPlace bar (true, depth) c = some (true, depth) := by
        unfold stepPlace
        rw [if_neg hc, if_pos rfl]
      rw [walk_cons, hstep, Option.bind_some, ih]

/-- A text in quotes is sealed. -/
theorem sealed_quote (bar : Char → Bool) (s : List Char) : Sealed bar (quote s) := by
  rw [Sealed, quote, walk_cons, show stepPlace bar (false, 0) '\'' = some (true, 0) from rfl,
    Option.bind_some, walk_append, walk_doubled]
  rfl

/-- Texts that stay where they are do so when they are joined by what is no bar there. -/
theorem walk_joined {sep : Char} (hbare : isBare sep = true) {depth : Nat}
    (hsep : bar sep = false ∨ depth ≠ 0) {texts : List (List Char)}
    (h : ∀ s ∈ texts, walk bar (false, depth) s = some (false, depth)) :
    walk bar (false, depth) (Query.joined sep texts) = some (false, depth) := by
  induction texts with
  | nil => rfl
  | cons s texts ih =>
    obtain ⟨hs, htexts⟩ := List.forall_mem_cons.mp h
    cases texts with
    | nil => rwa [Query.joined_singleton]
    | cons t texts =>
      rw [Query.joined_cons_cons, walk_append, hs, Option.bind_some, walk_cons,
        stepPlace_bare hbare false hsep, Option.bind_some]
      exact ih htexts

/-! ### Cutting outside quotes and parentheses -/

private theorem splitFrom_append {sep : Char} (h : walk (· == sep) place s = some place')
    (rest : List Char) : splitFrom sep place.1 place.2 (s ++ rest) =
      (splitFrom sep place'.1 place'.2 rest).map fun pieces ↦ s.foldr pushFront pieces := by
  induction s generalizing place with
  | nil =>
    cases h
    simp
  | cons c s ih =>
    obtain ⟨p, hp, hs⟩ := Option.bind_eq_some_iff.mp ((walk_cons _ place c s).symm.trans h)
    obtain ⟨quoted, depth⟩ := place
    have hmap : (splitFrom sep p.1 p.2 (s ++ rest)).map (pushFront c) =
        (splitFrom sep place'.1 place'.2 rest).map
          fun pieces ↦ (c :: s).foldr pushFront pieces := by
      rw [ih hs, Option.map_map]
      rfl
    rw [List.cons_append, splitFrom]
    unfold stepPlace at hp
    simp only [beq_iff_eq] at hp
    grind

private theorem foldr_pushFront (s piece : List Char) (pieces : List (List Char)) :
    s.foldr pushFront (piece :: pieces) = (s ++ piece) :: pieces := by
  induction s with
  | nil => rfl
  | cons c s ih => rw [List.foldr_cons, ih, pushFront, List.cons_append]

/-- A text that leaves no parenthesis open and has no separator outside is one piece. -/
theorem splitTopLevel_of_walk {sep : Char} {quoted : Bool}
    (h : walk (· == sep) (false, 0) s = some (quoted, 0)) : splitTopLevel sep s = some [s] := by
  have happend := splitFrom_append h []
  rwa [List.append_nil, splitFrom, if_pos rfl, Option.map_some, foldr_pushFront,
    List.append_nil] at happend

/-- Sealed texts are the pieces of their join. -/
theorem splitTopLevel_joined {sep : Char} (hsep : isBare sep = true) {texts : List (List Char)}
    (hne : texts ≠ []) (h : ∀ s ∈ texts, Sealed (· == sep) s) :
    splitTopLevel sep (Query.joined sep texts) = some texts := by
  induction texts with
  | nil => exact absurd rfl hne
  | cons s texts ih =>
    obtain ⟨hs, htexts⟩ := List.forall_mem_cons.mp h
    cases texts with
    | nil => rw [Query.joined_singleton, splitTopLevel_of_walk hs]
    | cons t texts =>
      unfold splitTopLevel at ih ⊢
      have hcut : splitFrom sep false 0 (sep :: Query.joined sep (t :: texts)) =
          some ([] :: t :: texts) := by
        simp only [isBare, List.contains_iff_mem, Bool.not_eq_true', List.mem_cons,
          List.not_mem_nil, or_false, Bool.eq_false_iff, ne_eq, not_or] at hsep
        rw [splitFrom, if_neg hsep.1, if_neg Bool.false_ne_true, if_neg hsep.2.1,
          if_neg hsep.2.2, if_pos ⟨rfl, rfl⟩, ih (List.cons_ne_nil t texts) htexts, Option.map_some]
      rw [Query.joined_cons_cons, splitFrom_append hs, hcut, Option.map_some, foldr_pushFront,
        List.append_nil]

-- A character is part of the first piece, or it is a separator outside quotes and parentheses.
private theorem splitFrom_cons {sep : Char} {quoted : Bool} {depth : Nat} {c : Char}
    {pieces : List (List Char)} (h : splitFrom sep quoted depth (c :: s) = some pieces) :
    (∃ p, stepPlace (· == sep) (quoted, depth) c = some p ∧
      (splitFrom sep p.1 p.2 s).map (pushFront c) = some pieces) ∨
    ((quoted, depth) = (false, 0) ∧ c = sep ∧ isBare c = true ∧
      (splitFrom sep false 0 s).map ([] :: ·) = some pieces) := by
  rw [splitFrom] at h
  split at h
  · next hquote => exact .inl ⟨(!quoted, depth), by rw [stepPlace, if_pos hquote], h⟩
  cases quoted with
  | true => exact .inl ⟨(true, depth), by rw [stepPlace, if_neg ‹_›, if_pos rfl], h⟩
  | false =>
    simp only [Bool.false_eq_true, ite_false] at h
    split at h
    · next hopen => exact .inl ⟨(false, depth + 1), by simp [stepPlace, hopen], h⟩
    split at h
    · next hclose =>
      split at h
      · cases h
      · next hdepth => exact .inl ⟨(false, depth - 1), by simp [stepPlace, hclose, hdepth], h⟩
    split at h
    · next hsep =>
      obtain ⟨rfl, rfl⟩ := hsep
      exact .inr ⟨rfl, rfl, by simp [isBare, *], h⟩
    · next hsep => exact .inl ⟨(false, depth), by simp [stepPlace, *], h⟩

/-- Each piece of a cut text has no separator outside quotes and parentheses. If the text does not
end in quotes, no piece does. -/
theorem walk_of_splitFrom {sep : Char} {quoted : Bool} {depth : Nat} {pieces : List (List Char)}
    (h : splitFrom sep quoted depth s = some pieces) :
    ∃ piece more b, pieces = piece :: more ∧ walk (fun _ ↦ false) (quoted, depth) s = some (b, 0) ∧
      (∃ b', walk (· == sep) (quoted, depth) piece = some (b', 0) ∧ (b = false → b' = false)) ∧
      ∀ p ∈ more, ∃ b', walk (· == sep) (false, 0) p = some (b', 0) ∧ (b = false → b' = false) := by
  induction s generalizing quoted depth pieces with
  | nil =>
    rw [splitFrom] at h
    split at h
    · next hdepth =>
      cases h
      rw [hdepth]
      exact ⟨[], [], quoted, rfl, rfl, ⟨quoted, rfl, id⟩, fun p hp ↦ by cases hp⟩
    · cases h
  | cons c s ih =>
    rcases splitFrom_cons h with ⟨p, hp, hcut⟩ | ⟨hplace, -, hbare, hcut⟩
    · obtain ⟨rest, hrest, rfl⟩ := Option.map_eq_some_iff.mp hcut
      obtain ⟨piece, more, b, rfl, hs, ⟨b', hpiece, hb⟩, hmore⟩ := ih hrest
      refine ⟨c :: piece, more, b, rfl, ?_, ⟨b', ?_, hb⟩, hmore⟩
      · rw [walk_cons, stepPlace_mono hp (fun _ hc ↦ by cases hc), Option.bind_some]
        exact hs
      · rw [walk_cons, hp, Option.bind_some]
        exact hpiece
    · cases hplace
      obtain ⟨rest, hrest, rfl⟩ := Option.map_eq_some_iff.mp hcut
      obtain ⟨piece, more, b, rfl, hs, hpiece, hmore⟩ := ih hrest
      refine ⟨[], piece :: more, b, rfl, ?_, ⟨false, rfl, fun _ ↦ rfl⟩,
        List.forall_mem_cons.mpr ⟨hpiece, hmore⟩⟩
      rw [walk_cons, stepPlace_bare hbare false (.inl rfl), Option.bind_some]
      exact hs

/-- At the top level the first piece is like all others. -/
theorem walk_of_splitTopLevel {sep : Char} {pieces : List (List Char)}
    (h : splitTopLevel sep s = some pieces) :
    pieces ≠ [] ∧ ∃ b, walk (fun _ ↦ false) (false, 0) s = some (b, 0) ∧
      ∀ p ∈ pieces, ∃ b', walk (· == sep) (false, 0) p = some (b', 0) ∧
        (b = false → b' = false) := by
  obtain ⟨piece, more, b, rfl, hb, hpiece, hmore⟩ := walk_of_splitFrom h
  exact ⟨List.cons_ne_nil piece more, b, hb, List.forall_mem_cons.mpr ⟨hpiece, hmore⟩⟩

private theorem isSome_splitFrom {sep : Char} {quoted quoted' : Bool} {depth : Nat}
    (h : walk (fun _ ↦ false) (quoted, depth) s = some (quoted', 0)) :
    (splitFrom sep quoted depth s).isSome := by
  induction s generalizing quoted depth with
  | nil =>
    cases h
    rfl
  | cons c s ih =>
    rw [walk_cons] at h
    obtain ⟨⟨b, d⟩, hp, hs⟩ := Option.bind_eq_some_iff.mp h
    have hmore := ih hs
    rw [splitFrom]
    unfold stepPlace at hp
    grind

/-- A text is cut exactly if it leads out of all parentheses. -/
theorem isSome_splitTopLevel {sep : Char} : (splitTopLevel sep s).isSome ↔
    ∃ quoted, walk (fun _ ↦ false) (false, 0) s = some (quoted, 0) := by
  constructor
  · intro h
    obtain ⟨pieces, hpieces⟩ := Option.isSome_iff_exists.mp h
    obtain ⟨-, quoted, hwalk, -⟩ := walk_of_splitTopLevel hpieces
    exact ⟨quoted, hwalk⟩
  · rintro ⟨quoted, hwalk⟩
    exact isSome_splitFrom hwalk

-- A piece that a separator follows leads out of all quotes and parentheses.
private theorem walk_of_more {sep : Char} {quoted : Bool} {depth : Nat} {piece : List Char}
    {more : List (List Char)} (h : splitFrom sep quoted depth s = some (piece :: more)) :
    (more ≠ [] → walk (· == sep) (quoted, depth) piece = some (false, 0)) ∧
      ∀ p ∈ more.dropLast, Sealed (· == sep) p := by
  induction s generalizing quoted depth piece more with
  | nil =>
    rw [splitFrom] at h
    split at h <;> cases h
    exact ⟨fun hne ↦ absurd rfl hne, nofun⟩
  | cons c s ih =>
    rcases splitFrom_cons h with ⟨p, hp, hcut⟩ | ⟨hplace, -, -, hcut⟩
    · obtain ⟨rest, hrest, heq⟩ := Option.map_eq_some_iff.mp hcut
      obtain ⟨first, others, _, rfl, -⟩ := walk_of_splitFrom hrest
      cases heq
      obtain ⟨hfirst, hothers⟩ := ih hrest
      refine ⟨fun hne ↦ ?_, hothers⟩
      rw [walk_cons, hp, Option.bind_some]
      exact hfirst hne
    · obtain ⟨rest, hrest, heq⟩ := Option.map_eq_some_iff.mp hcut
      obtain ⟨first, others, _, rfl, -⟩ := walk_of_splitFrom hrest
      cases heq
      obtain ⟨hfirst, hothers⟩ := ih hrest
      refine ⟨fun _ ↦ by rw [hplace]; rfl, ?_⟩
      cases others with
      | nil => exact nofun
      | cons other others => exact List.forall_mem_cons.mpr ⟨hfirst (List.cons_ne_nil _ _), hothers⟩

/-- Every piece but the last is sealed, since a separator follows it. -/
theorem sealed_dropLast_of_splitTopLevel {sep : Char} {pieces : List (List Char)}
    (h : splitTopLevel sep s = some pieces) : ∀ p ∈ pieces.dropLast, Sealed (· == sep) p := by
  obtain ⟨piece, more, _, rfl, -⟩ := walk_of_splitFrom h
  obtain ⟨hpiece, hmore⟩ := walk_of_more h
  cases more with
  | nil => exact nofun
  | cons other more => exact List.forall_mem_cons.mpr ⟨hpiece (List.cons_ne_nil _ _), hmore⟩

private theorem joined_of_splitFrom {sep : Char} {quoted : Bool} {depth : Nat}
    {pieces : List (List Char)} (h : splitFrom sep quoted depth s = some pieces) :
    Query.joined sep pieces = s := by
  induction s generalizing quoted depth pieces with
  | nil =>
    rw [splitFrom] at h
    split at h <;> cases h
    rfl
  | cons c s ih =>
    rcases splitFrom_cons h with ⟨p, -, hcut⟩ | ⟨-, hsep, -, hcut⟩
    · obtain ⟨rest, hrest, rfl⟩ := Option.map_eq_some_iff.mp hcut
      rw [joined_pushFront, ih hrest]
    · obtain ⟨rest, hrest, rfl⟩ := Option.map_eq_some_iff.mp hcut
      obtain ⟨piece, more, _, rfl, -⟩ := walk_of_splitFrom hrest
      rw [joined_nil_cons sep (List.cons_ne_nil piece more), ih hrest, hsep]

/-- The pieces of a text are those that it is joined from, wherever it is cut. -/
theorem joined_of_splitTopLevel {sep : Char} {pieces : List (List Char)}
    (h : splitTopLevel sep s = some pieces) : Query.joined sep pieces = s := joined_of_splitFrom h

/-- The pieces of a text that does not end in quotes are sealed. -/
theorem sealed_of_splitTopLevel {sep : Char} {pieces : List (List Char)}
    (h : splitTopLevel sep s = some pieces)
    (hs : walk (fun _ ↦ false) (false, 0) s = some (false, 0)) :
    ∀ p ∈ pieces, Sealed (· == sep) p := by
  obtain ⟨-, b, hb, hpieces⟩ := walk_of_splitTopLevel h
  cases hs.symm.trans hb
  intro p hp
  obtain ⟨b', hb', hfalse⟩ := hpieces p hp
  rw [Sealed, hb', hfalse rfl]

/-! ### Blanks at the ends -/

/-- The text begins and ends with a character that is not blank. -/
structure Edged (s : List Char) : Prop where
  ne_nil : s ≠ []
  front : ∀ c ∈ s.head?, isBlank c = false
  back : ∀ c ∈ s.getLast?, isBlank c = false

/-- What stands between the ends does not count. -/
theorem Edged.around {s t : List Char} (hs : Edged s) (mid : List Char) (ht : Edged t) :
    Edged (s ++ (mid ++ t)) := by
  refine ⟨fun h ↦ hs.ne_nil (List.append_eq_nil_iff.mp h).1, ?_, ?_⟩
  · obtain ⟨c, s, rfl⟩ := List.exists_cons_of_ne_nil hs.ne_nil
    exact hs.front
  · intro c hc
    rw [List.getLast?_append, List.getLast?_append, List.getLast?_eq_some_getLast ht.ne_nil] at hc
    exact ht.back c (by rwa [List.getLast?_eq_some_getLast ht.ne_nil])

/-- Joined texts have no blanks at their ends if none of them has. -/
theorem edged_joined {sep : Char} {texts : List (List Char)} (hne : texts ≠ [])
    (h : ∀ s ∈ texts, Edged s) : Edged (Query.joined sep texts) := by
  induction texts with
  | nil => exact absurd rfl hne
  | cons s texts ih =>
    obtain ⟨hs, htexts⟩ := List.forall_mem_cons.mp h
    cases texts with
    | nil => rwa [Query.joined_singleton]
    | cons t texts =>
      rw [Query.joined_cons_cons]
      exact hs.around [sep] (ih (List.cons_ne_nil t texts) htexts)

private theorem trimStart_eq_self (h : ∀ c ∈ s.head?, isBlank c = false) : trimStart s = s := by
  cases s with
  | nil => rfl
  | cons c s => rw [trimStart, List.dropWhile_cons_of_neg (by simp [h c rfl])]

/-- A text that does not end in a blank is not trimmed at its end. -/
theorem trimEnd_eq_self (h : ∀ c ∈ s.getLast?, isBlank c = false) : trimEnd s = s := by
  have hreverse : trimStart s.reverse = s.reverse := by
    apply trimStart_eq_self
    rwa [List.head?_reverse]
  rw [trimEnd]
  exact (congrArg List.reverse hreverse).trans (List.reverse_reverse s)

/-- A text without blanks at its ends is not trimmed. -/
theorem Edged.trim {s : List Char} (h : Edged s) : trim s = s := by
  rw [Text.trim, trimStart_eq_self h.front, trimEnd_eq_self h.back]

end Text

end SensorQuery
