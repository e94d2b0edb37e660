import SensorQuery.Proofs.Query.Formed
import SensorQuery.Proofs.Query.Pieces

/-!
# Reading that does not depend on what follows

A text that closes all quotes and parentheses is read the same wherever an operand may end
(`Steady`). Each scanner leads from one place to another, where a place is whether the scanner
stands in quotes, and in how many parentheses. Words end where operands end, so they are read the
same at any place; what skips blanks itself must stand in parentheses, since only there does
something of the text follow.

The two readings may use different scanners, since the recursion of the grammar is bounded by the
length of the whole text.
-/

namespace SensorQuery

open Scanner

namespace Text

/-- The text closes the quotes and parentheses that are open at the place, and no others. -/
def Shuts (place : Bool × Nat) (s : List Char) : Prop :=
  walk (fun _ ↦ false) place s = some (false, 0)

/-- The class has no quote, no parenthesis, and nothing else that ends an operand. -/
def Solid (p : Char → Bool) : Prop :=
  (['\'', '('] ++ [' ', '\t', '\r', '\n', ')', ',']).all (!p ·) = true

instance (p : Char → Bool) : Decidable (Solid p) := inferInstanceAs (Decidable (_ = true))

variable {p : Char → Bool} {place place' : Bool × Nat} {s t w : List Char}

private theorem Shuts.of_append (h : Shuts place (w ++ s))
    (hw : walk (fun _ ↦ false) place w = some place') : Shuts place' s := by
  unfold Shuts at h
  rwa [walk_append, hw, Option.bind_some] at h

/-- Nothing is left open at the end of a text. -/
theorem eq_of_shuts_nil (h : Shuts place []) : place = (false, 0) := Option.some.inj h

private theorem Solid.eq_false (hp : Solid p) {c : Char}
    (hc : c ∈ ['\'', '('] ++ [' ', '\t', '\r', '\n', ')', ',']) : p c = false := by
  have hnone := List.all_eq_true.mp hp c hc
  rwa [Bool.not_eq_true'] at hnone

private theorem Solid.isBare (hp : Solid p) {c : Char} (hc : p c = true) : isBare c = true := by
  unfold Text.isBare
  rw [Bool.not_eq_true', Bool.eq_false_iff, ne_eq, List.contains_iff_mem]
  intro hmem
  have hsolid : p c = false := by
    apply hp.eq_false
    simp only [List.mem_cons, List.not_mem_nil, or_false] at hmem
    rcases hmem with rfl | rfl | rfl <;> simp
  rw [hsolid] at hc
  cases hc

/-- A word of a solid class ends where an operand does. -/
theorem Solid.stops (hp : Solid p) (ht : Ends t) : Stops p t :=
  fun c hc ↦ hp.eq_false (List.mem_append_right _ (mem_of_isEnd (ht c hc)))

/-- A text within parentheses has more than blanks. -/
theorem Shuts.exists_of_depth {depth : Nat} (h : Shuts (false, depth + 1) s) :
    ∃ c ∈ s, c.isWhitespace = false := by
  by_contra hnone
  have hblank : ∀ c ∈ s, c.isWhitespace = true := by
    intro c hc
    cases hspace : c.isWhitespace with
    | true => rfl
    | false => exact absurd ⟨c, hc, hspace⟩ hnone
  rw [Shuts, walk_blank fun c hc ↦ isBlank_of_isWhitespace c (hblank c hc)] at h
  cases h

end Text

namespace Scanner

variable {ε δ α β : Type}

/-- What the one scanner reads leads from the place `a` to the place `b`. From a text shorter than
`n` that closes what is open at `a`, the other scanner reads the same, wherever the text ends. -/
structure Steady (n : Nat) (a b : Bool × Nat) (p p' : Scanner ε α) : Prop where
  reads : ∀ {s x rest}, p s = .found x rest →
    ∃ w, s = w ++ rest ∧ Text.walk (fun _ ↦ false) a w = some b
  before : ∀ {s t}, s.length < n → Text.Shuts a s → Ends t → p' (s ++ t) = (p s).before t

namespace Steady

variable {n : Nat} {a b c : Bool × Nat}

/-- A steady scanner leaves no more than there was. -/
theorem length_le {p p' : Scanner ε α} (h : Steady n a b p p') {s rest : List Char} {x : α}
    (hx : p s = .found x rest) : rest.length ≤ s.length := by
  obtain ⟨w, rfl, -⟩ := h.reads hx
  simp

/-- What is steady with some turns is steady with fewer. -/
protected theorem mono {p p' : Scanner ε α} (h : Steady n a b p p') {m : Nat} (hm : m ≤ n) :
    Steady m a b p p' where
  reads := h.reads
  before hs := h.before (by omega)

/-! ### Sequence and choice -/

/-- An answer without reading is steady. -/
protected theorem pure (x : α) : Steady n a a (pure x : Scanner ε α) (pure x) where
  reads h := by
    cases h
    exact ⟨[], rfl, rfl⟩
  before _ _ _ := rfl

/-- What finds nothing is steady. -/
protected theorem miss : Steady n a b (miss : Scanner ε α) miss where
  reads h := by cases h
  before _ _ _ := rfl

/-- A refusal is steady. -/
protected theorem refuse (e : ε) : Steady n a b (refuse e : Scanner ε α) (refuse e) where
  reads h := by cases h
  before _ _ _ := rfl

/-- A computation without reading is steady. -/
protected theorem ofExcept (x : Except ε α) :
    Steady n a a (ofExcept x : Scanner ε α) (ofExcept x) := by
  cases x with
  | error e => exact .refuse e
  | ok x => exact .pure x

-- A sequence is steady if its second part is, on what the first leaves.
private theorem bind_of {p p' : Scanner ε α} {f f' : α → Scanner ε β} (hp : Steady n a b p p')
    (hf : ∀ {s x mid}, s.length < n → p s = .found x mid →
      ∃ m, mid.length < m ∧ Steady m b c (f x) (f' x))
    (hreads : ∀ x, ∃ m, Steady m b c (f x) (f' x)) : Steady n a c (p >>= f) (p' >>= f') where
  reads h := by
    obtain ⟨x, mid, hx, hmid⟩ := bind_eq_found.mp h
    obtain ⟨m, hsteady⟩ := hreads x
    obtain ⟨w, rfl, hw⟩ := hp.reads hx
    obtain ⟨v, rfl, hv⟩ := hsteady.reads hmid
    refine ⟨w ++ v, (List.append_assoc w v _).symm, ?_⟩
    rw [Text.walk_append, hw, Option.bind_some, hv]
  before {s t} hn hs ht := by
    rw [bind_apply, bind_apply, hp.before hn hs ht]
    cases hx : p s with
    | found x mid =>
      obtain ⟨m, hm, hsteady⟩ := hf hn hx
      obtain ⟨w, rfl, hw⟩ := hp.reads hx
      exact hsteady.before hm (hs.of_append hw) ht
    | missed => rfl
    | refused e => rfl

/-- A sequence is steady if its parts are. -/
protected theorem bind {p p' : Scanner ε α} {f f' : α → Scanner ε β} (hp : Steady n a b p p')
    (hf : ∀ x, Steady n b c (f x) (f' x)) : Steady n a c (p >>= f) (p' >>= f') :=
  hp.bind_of (fun hn hx ↦ ⟨n, Nat.lt_of_le_of_lt (hp.length_le hx) hn, hf _⟩)
    fun x ↦ ⟨n, hf x⟩

/-- Behind something that was read, less text is left. -/
protected theorem bind_moves {p p' : Scanner ε α} {f f' : α → Scanner ε β} (hp : Steady n a b p p')
    (hmoves : Moves p) (hf : ∀ x, Steady (n - 1) b c (f x) (f' x)) :
    Steady n a c (p >>= f) (p' >>= f') := by
  refine hp.bind_of (fun {s x mid} hn hx ↦ ⟨n - 1, ?_, hf x⟩) fun x ↦ ⟨n - 1, hf x⟩
  have hlt := hmoves hx
  omega

/-- A choice is steady if its alternatives are. -/
protected theorem orElse {p p' q q' : Scanner ε α} (hp : Steady n a b p p')
    (hq : Steady n a b q q') : Steady n a b (orElse p q) (orElse p' q') where
  reads h := by
    rcases orElse_eq_found.mp h with h | ⟨-, h⟩
    · exact hp.reads h
    · exact hq.reads h
  before {s t} hn hs ht := by
    unfold orElse
    rw [hp.before hn hs ht]
    cases p s with
    | found x mid => rfl
    | missed => exact hq.before hn hs ht
    | refused e => rfl

/-- The choice of none is steady. -/
protected theorem firstOf_nil : Steady n a b (firstOf [] : Scanner ε α) (firstOf []) := .miss

/-- A choice of several is steady if each of them is. -/
protected theorem firstOf_cons {p p' : Scanner ε α} {ps ps' : List (Scanner ε α)}
    (hp : Steady n a b p p') (hps : Steady n a b (firstOf ps) (firstOf ps')) :
    Steady n a b (firstOf (p :: ps)) (firstOf (p' :: ps')) := .orElse hp hps

/-- What may be left out is steady if it is where it stands. -/
protected theorem optional {p p' : Scanner ε α} (hp : Steady n a a p p') :
    Steady n a a (optional p) (optional p') where
  reads h := by
    rcases optional_eq_found.mp h with ⟨x, -, hx⟩ | ⟨-, -, rfl⟩
    · exact hp.reads hx
    · exact ⟨[], rfl, rfl⟩
  before {s t} hn hs ht := by
    unfold optional
    rw [hp.before hn hs ht]
    cases p s <;> rfl

/-- Behind an optional part that is there, less text is left. -/
protected theorem optional_moves {p p' : Scanner ε α} {f f' : Option α → Scanner ε β}
    (hp : Steady n a a p p') (hmoves : Moves p)
    (hsome : ∀ x, Steady (n - 1) a c (f (some x)) (f' (some x)))
    (hnone : Steady n a c (f none) (f' none)) :
    Steady n a c (optional p >>= f) (optional p' >>= f') := by
  apply (Steady.optional hp).bind_of
  · intro s o mid hn ho
    rcases optional_eq_found.mp ho with ⟨x, rfl, hx⟩ | ⟨rfl, -, rfl⟩
    · have hlt := hmoves hx
      exact ⟨n - 1, by omega, hsome x⟩
    · exact ⟨n, hn, hnone⟩
  · intro o
    cases o with
    | some x => exact ⟨n - 1, hsome x⟩
    | none => exact ⟨n, hnone⟩

/-- The causes of refusal may depend on the text as far as its first end of an operand. -/
protected theorem mapCause {g : List Char → δ → ε} {p p' : Scanner δ α} (hp : Steady n a b p p')
    (hg : ∀ s t, Ends t → g (s ++ t) = g s) :
    Steady n a b (fun s ↦ mapCause (g s) p s) (fun s ↦ mapCause (g s) p' s) where
  reads h := hp.reads (mapCause_eq_found.mp h)
  before {s t} hn hs ht := by
    simp only [mapCause, hp.before hn hs ht, hg s t ht]
    cases p s <;> rfl

/-! ### Words -/

/-- A word of a solid class is steady anywhere. -/
protected theorem of_within {P : Char → Bool} {p : Scanner ε α} (h : Within P p)
    (hP : Text.Solid P) : Steady n a a p p where
  reads hx := by
    obtain ⟨w, rfl, hw⟩ := h.reads hx
    exact ⟨w, rfl, Text.walk_bare (fun c hc ↦ hP.isBare (hw c hc)) _ (.inl fun _ _ ↦ rfl)⟩
  before _ _ ht := h.before _ (hP.stops ht)

/-- What looks ahead is steady, if it looks for no parenthesis that closes. -/
protected theorem notBefore {P : Char → Bool} (hP : Text.Solid P) :
    Steady n a a (notBefore P : Scanner ε Unit) (notBefore P) where
  reads hx := by
    obtain ⟨rfl, -⟩ := notBefore_eq_found.mp hx
    exact ⟨[], rfl, rfl⟩
  before {s t} _ _ ht := by
    cases s with
    | nil => exact notBefore_of_stops (hP.stops ht)
    | cons c s =>
      cases hc : P c with
      | false =>
        have hstops (u : List Char) : Stops P (c :: u) := (stops_cons _ _ _).mpr hc
        rw [List.cons_append, notBefore_of_stops (hstops _), notBefore_of_stops (hstops _)]
        rfl
      | true =>
        rw [List.cons_append, notBefore_missed hc, notBefore_missed hc]
        rfl

/-- A given word leads where it leads. -/
protected theorem exactly {w : List Char} (hw : Text.walk (fun _ ↦ false) a w = some b)
    (hend : w.all (!isEnd ·) = true) :
    Steady n a b (exactly w : Scanner ε Unit) (exactly w) where
  reads hx := ⟨w, exactly_eq_found.mp hx, hw⟩
  before {s t} _ _ ht := by
    have hwithin : Within (!isEnd ·) (exactly w : Scanner ε Unit) :=
      .exactly (List.all_eq_true.mp hend)
    apply hwithin.before s
    intro c hc
    simp only [ht c hc, Bool.not_true]

/-- One character that must be there where something is open. -/
protected theorem char {c : Char} (hc : Text.stepPlace (fun _ ↦ false) a c = some b)
    (hend : isEnd c = false ∨ a ≠ (false, 0)) :
    Steady n a b (char c : Scanner ε Unit) (char c) where
  reads hx := ⟨[c], char_eq_found.mp hx, by rw [Text.walk_cons, hc]; rfl⟩
  before {s t} _ hs ht := by
    cases s with
    | nil =>
      have hstops : Stops (· == c) t := by
        intro d hd
        rw [beq_eq_false_iff_ne]
        rintro rfl
        rw [ht d hd, Text.eq_of_shuts_nil hs] at hend
        simp at hend
      rw [List.nil_append, char_missed hstops, char_missed (stops_nil _)]
      rfl
    | cons d s =>
      by_cases hd : d = c
      · rw [hd, List.cons_append, char_cons, char_cons]
        rfl
      · have hstops (u : List Char) : Stops (· == c) (d :: u) := by simpa using hd
        rw [List.cons_append, char_missed (hstops _), char_missed (hstops _)]
        rfl

/-- A character in quotes, other than the quote that ends them. -/
protected theorem quotedChar {depth : Nat} : Steady n (true, depth) (true, depth)
    (satisfy (· != '\'') : Scanner ε Char) (satisfy (· != '\'')) where
  reads {s c rest} hx := by
    obtain ⟨rfl, hc⟩ := satisfy_eq_found.mp hx
    refine ⟨[c], rfl, ?_⟩
    have hstep : Text.stepPlace (fun _ ↦ false) (true, depth) c = some (true, depth) := by
      unfold Text.stepPlace
      rw [if_neg (by simpa using hc), if_pos rfl]
    rw [Text.walk_cons, hstep]
    rfl
  before {s t} _ hs _ := by
    cases s with
    | nil => cases hs
    | cons c s =>
      simp only [satisfy, List.cons_append]
      split <;> rfl

/-! ### Blanks within parentheses -/

private theorem takeWhile_of_depth {depth : Nat} {s : List Char}
    (hs : Text.Shuts (false, depth + 1) s) (t : List Char) :
    (s ++ t).takeWhile Char.isWhitespace = s.takeWhile Char.isWhitespace ∧
      (s ++ t).dropWhile Char.isWhitespace = s.dropWhile Char.isWhitespace ++ t := by
  obtain ⟨c, hmem, hc⟩ := hs.exists_of_depth
  obtain ⟨front, back, rfl⟩ := List.append_of_mem hmem
  have hstops (u : List Char) : Stops Char.isWhitespace (c :: u) := (stops_cons _ _ _).mpr hc
  rw [List.append_assoc, List.cons_append]
  simp only [takeWhile_append_left (hstops _), dropWhile_append_left (hstops _),
    List.append_assoc, List.cons_append, and_self]

/-- Blanks are steady within parentheses. -/
protected theorem blanks {depth : Nat} : Steady n (false, depth + 1) (false, depth + 1)
    (blanks : Scanner ε Unit) blanks where
  reads {s u rest} hx := by
    rw [blanks_apply, Scan.found.injEq] at hx
    obtain ⟨-, rfl⟩ := hx
    exact ⟨_, List.takeWhile_append_dropWhile.symm,
      Text.walk_blank (fun c hc ↦ Text.isBlank_of_isWhitespace c (List.mem_takeWhile_imp hc)) _⟩
  before {s t} _ hs _ := by
    rw [blanks_apply, blanks_apply, (takeWhile_of_depth hs t).2]
    rfl

/-- A blank or more are steady within parentheses. -/
protected theorem blanks1 {depth : Nat} : Steady n (false, depth + 1) (false, depth + 1)
    (blanks1 : Scanner ε Unit) blanks1 := by
  refine .bind ?_ fun _ ↦ .pure ()
  constructor
  · intro s w rest hx
    obtain ⟨rfl, -, hw, -⟩ := run1_eq_found.mp hx
    exact ⟨w, rfl, Text.walk_blank (fun c hc ↦ Text.isBlank_of_isWhitespace c (hw c hc)) _⟩
  · intro s t _ hs _
    obtain ⟨htake, hdrop⟩ := takeWhile_of_depth hs t
    simp only [run1, htake, hdrop]
    split <;> rfl

/-! ### Repetition -/

-- A repetition is steady, if it has turns enough in both readings.
private theorem manyUpTo {p p' : Scanner ε α} (hmoves : Moves p) (hnil : p [] = .missed) {k m : Nat}
    (hp : Steady n a a p p') (hn : n ≤ k + 1) (hm : k ≤ m) :
    Steady n a a (manyUpTo p k) (Scanner.manyUpTo p' m) := by
  induction k generalizing n m with
  | zero =>
    constructor
    · intro s xs rest hx
      cases hx
      exact ⟨[], rfl, rfl⟩
    · intro s t hs hshut ht
      obtain rfl : s = [] := List.length_eq_zero_iff.mp (by omega)
      have hmissed := hp.before hs hshut ht
      rw [hnil] at hmissed
      cases m with
      | zero => rfl
      | succ m =>
        simp only [Scanner.manyUpTo, hmissed]
        rfl
  | succ k ih =>
    cases m with
    | zero => omega
    | succ m =>
      rw [manyUpTo_succ, manyUpTo_succ]
      exact .optional_moves hp hmoves (fun x ↦ .bind
        (ih (hp.mono (Nat.sub_le n 1)) (by omega) (by omega)) fun xs ↦ .pure (x :: xs)) (.pure [])

/-- A repetition of what is steady is steady, if it ends with the text. -/
protected theorem many {p p' : Scanner ε α} (hp : Steady n a a p p') (hmoves : Moves p)
    (hnil : p [] = .missed) : Steady n a a (many p) (many p') where
  reads hx := (manyUpTo hmoves hnil (hp.mono (Nat.zero_le n)) (Nat.zero_le _)
    (Nat.le_refl _)).reads hx
  before {s t} hn hs ht := by
    refine (manyUpTo hmoves hnil (hp.mono hn) (Nat.le_refl _) ?_).before (Nat.lt_succ_self _) hs ht
    rw [List.length_append]
    omega

/-- A list with separators is steady if its parts are. -/
protected theorem separated {sep sep' : Scanner ε Unit} {p p' : Scanner ε α}
    (hsep : Steady n a a sep sep') (hp : Steady n a a p p') (hmoves : Moves sep)
    (hnil : sep [] = .missed) : Steady n a a (separated sep p) (separated sep' p') := by
  refine .bind hp fun x ↦ .bind (.many (.bind hsep fun _ ↦ hp) ?_ (bind_missed hnil))
    fun xs ↦ .pure (x :: xs)
  exact hmoves.bind_left hp.length_le

end Steady

end Scanner

end SensorQuery
