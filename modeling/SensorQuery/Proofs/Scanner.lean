import SensorQuery.Scan

/-!
# Laws of scanners

What each combinator finds, for reading a given text and for taking a successful scan apart.
A scanner finds a text together with what may follow it, so the reading laws carry an arbitrary
rest whose first character cannot belong to the text (`Stops`). `Within` says of a scanner which
characters it reads and that it refuses nothing.
-/

namespace SensorQuery

namespace Scanner

variable {ε δ α β : Type}

/-- No character of the class comes next. -/
def Stops (p : Char → Bool) (rest : List Char) : Prop := ∀ c ∈ rest.head?, p c = false

/-- Every run ends with the text. -/
@[simp] theorem stops_nil (p : Char → Bool) : Stops p [] := by
  simp [Stops]

/-- A run ends in front of a character that is none of its own. -/
@[simp] theorem stops_cons (p : Char → Bool) (c : Char) (rest : List Char) :
    Stops p (c :: rest) ↔ p c = false := by
  simp [Stops]

/-- A text begins with the character, or it stops there. -/
theorem stops_or_exists (c : Char) (s : List Char) : Stops (· == c) s ∨ ∃ t, s = c :: t := by
  cases s with
  | nil => exact .inl (stops_nil _)
  | cons d s =>
    by_cases h : d = c
    · exact .inr ⟨s, by rw [h]⟩
    · exact .inl ((stops_cons _ _ _).mpr (by simpa using h))

/-- No character is taken where a run ends. -/
theorem Stops.takeWhile_eq_nil {p : Char → Bool} {rest : List Char} (h : Stops p rest) :
    rest.takeWhile p = [] := by
  cases rest with
  | nil => rfl
  | cons c rest =>
    rw [stops_cons] at h
    simp [h]

/-- No character is dropped where a run ends. -/
theorem Stops.dropWhile_eq {p : Char → Bool} {rest : List Char} (h : Stops p rest) :
    rest.dropWhile p = rest := by
  cases rest with
  | nil => rfl
  | cons c rest =>
    rw [stops_cons] at h
    simp [h]

/-- A text that goes on with one character only stops a class without it. -/
theorem Stops.of_ne {c : Char} {rest : List Char} (h : Stops (· != c) rest) {p : Char → Bool}
    (hc : p c = false) : Stops p rest := by
  intro d hd
  obtain rfl : d = c := by simpa using h d hd
  exact hc

/-- A class inside another has fewer characters to stop at. -/
theorem Stops.mono {p q : Char → Bool} {rest : List Char} (h : Stops q rest)
    (hpq : ∀ c, p c = true → q c = true) : Stops p rest := by
  intro c hc
  have hq := h c hc
  cases hp : p c with
  | false => rfl
  | true => rw [hpq c hp] at hq; exact hq

/-- A run is taken up to where it ends. -/
theorem takeWhile_append_of_stops {p : Char → Bool} {w rest : List Char} (hw : ∀ c ∈ w, p c = true)
    (h : Stops p rest) : (w ++ rest).takeWhile p = w := by
  rw [List.takeWhile_append_of_pos hw, h.takeWhile_eq_nil, List.append_nil]

/-- A run is dropped up to where it ends. -/
theorem dropWhile_append_of_stops {p : Char → Bool} {w rest : List Char} (hw : ∀ c ∈ w, p c = true)
    (h : Stops p rest) : (w ++ rest).dropWhile p = rest := by
  rw [List.dropWhile_append_of_pos hw, h.dropWhile_eq]

/-- What is taken of a text does not change with what follows, if a run ends there. -/
theorem takeWhile_append_left {p : Char → Bool} {s rest : List Char} (h : Stops p rest) :
    (s ++ rest).takeWhile p = s.takeWhile p := by
  induction s with
  | nil => exact h.takeWhile_eq_nil
  | cons c s ih => rw [List.cons_append, List.takeWhile_cons, List.takeWhile_cons, ih]

/-- What is dropped of a text does not change with what follows, if a run ends there. -/
theorem dropWhile_append_left {p : Char → Bool} {s rest : List Char} (h : Stops p rest) :
    (s ++ rest).dropWhile p = s.dropWhile p ++ rest := by
  induction s with
  | nil => exact h.dropWhile_eq
  | cons c s ih =>
    rw [List.cons_append, List.dropWhile_cons, List.dropWhile_cons, ih]
    split <;> rfl

/-- A word of a class does not reach into a text that stops it. -/
theorem exists_of_append_eq {p : Char → Bool} {s rest w back : List Char} (h : Stops p rest)
    (hw : ∀ c ∈ w, p c = true) (heq : s ++ rest = w ++ back) : ∃ v, s = w ++ v := by
  rcases List.append_eq_append_iff.mp heq with ⟨v, rfl, hrest⟩ | ⟨v, hs, -⟩
  · cases v with
    | nil => exact ⟨[], by simp⟩
    | cons c v =>
      rw [hrest, List.cons_append, stops_cons] at h
      rw [hw c (by simp)] at h
      cases h
  · exact ⟨v, hs⟩

/-- The run of a class in front of a text that stops it lies within what stands before. -/
theorem mem_of_mem_takeWhile {p : Char → Bool} {s rest : List Char} (h : Stops p rest)
    {c : Char} (hc : c ∈ (s ++ rest).takeWhile p) : c ∈ s := by
  induction s with
  | nil =>
    rw [List.nil_append, h.takeWhile_eq_nil] at hc
    cases hc
  | cons d s ih =>
    rw [List.cons_append, List.takeWhile_cons] at hc
    split at hc
    · rcases List.mem_cons.mp hc with rfl | hc
      · exact List.mem_cons_self
      · exact List.mem_cons_of_mem d (ih hc)
    · cases hc

/-- The run of a class at the front of a text is one word. -/
theorem run_unique {p : Char → Bool} {v w s t : List Char} (hv : ∀ c ∈ v, p c = true)
    (hw : ∀ c ∈ w, p c = true) (hs : Stops p s) (ht : Stops p t) (h : v ++ s = w ++ t) : v = w := by
  have htake := congrArg (List.takeWhile p) h
  rwa [takeWhile_append_of_stops hv hs, takeWhile_append_of_stops hw ht] at htake

/-- Where the scanner finds something, it reads something. -/
def Moves (p : Scanner ε α) : Prop :=
  ∀ ⦃s a rest⦄, p s = .found a rest → rest.length < s.length

/-! ### Sequence -/

/-- A value is found without reading. -/
theorem pure_apply (a : α) (s : List Char) : (pure a : Scanner ε α) s = .found a s := rfl

/-- A sequence reads with its second part what its first leaves. -/
theorem bind_apply (p : Scanner ε α) (f : α → Scanner ε β) (s : List Char) :
    (p >>= f) s = match p s with
      | .found a rest => f a rest
      | .missed => .missed
      | .refused e => .refused e := rfl

/-- A sequence goes on with its second part where its first finds something. -/
theorem bind_found {p : Scanner ε α} {f : α → Scanner ε β} {s rest : List Char} {a : α}
    (h : p s = .found a rest) : (p >>= f) s = f a rest := by
  rw [bind_apply, h]

/-- A sequence finds nothing where its first part finds nothing. -/
theorem bind_missed {p : Scanner ε α} {f : α → Scanner ε β} {s : List Char}
    (h : p s = .missed) : (p >>= f) s = .missed := by
  rw [bind_apply, h]

/-- A sequence finds something where both parts do, one behind the other. -/
theorem bind_eq_found {p : Scanner ε α} {f : α → Scanner ε β} {s rest : List Char} {b : β} :
    (p >>= f) s = .found b rest ↔ ∃ a mid, p s = .found a mid ∧ f a mid = .found b rest := by
  rw [bind_apply]
  cases hp : p s with
  | found a mid => simp [and_assoc]
  | missed => simp
  | refused e => simp

/-- A sequence finds nothing where one of its parts does. -/
theorem bind_eq_missed {p : Scanner ε α} {f : α → Scanner ε β} {s : List Char} :
    (p >>= f) s = .missed ↔
      p s = .missed ∨ ∃ a mid, p s = .found a mid ∧ f a mid = .missed := by
  rw [bind_apply]
  cases hp : p s with
  | found a mid => simp [and_assoc]
  | missed => simp
  | refused e => simp

/-- What cannot be refused is missed as a whole if what follows is missed wherever it leads. -/
theorem bind_missed_of_found {p : Scanner ε α} {f : α → Scanner ε β} {s : List Char}
    (hp : ∀ e, p s ≠ .refused e) (hf : ∀ a mid, p s = .found a mid → f a mid = .missed) :
    (p >>= f) s = .missed := by
  rw [bind_eq_missed]
  cases h : p s with
  | found a mid => exact .inr ⟨a, mid, rfl, hf a mid h⟩
  | missed => exact .inl rfl
  | refused e => exact absurd h (hp e)

/-- A value that is there is found without reading. -/
theorem ofOption_eq_found {o : Option α} {s rest : List Char} {a : α} :
    (ofOption o : Scanner ε α) s = .found a rest ↔ o = some a ∧ s = rest := by
  cases o with
  | none => simp [ofOption, miss]
  | some b => simp [ofOption, pure_apply]

/-- A value that is there is found. -/
theorem ofOption_some (a : α) (s : List Char) :
    (ofOption (some a) : Scanner ε α) s = .found a s := rfl

/-- A computation that succeeds finds what it gives. -/
theorem ofExcept_ok (a : α) (s : List Char) :
    (ofExcept (.ok a) : Scanner ε α) s = .found a s := rfl

/-- What a computation gives is found without reading. -/
theorem ofExcept_eq_found {x : Except ε α} {s rest : List Char} {a : α} :
    (ofExcept x : Scanner ε α) s = .found a rest ↔ x = .ok a ∧ s = rest := by
  cases x with
  | error e => simp [ofExcept, refuse]
  | ok b => simp [ofExcept, pure_apply]

/-- Changing the cause of refusals changes nothing that is found. -/
theorem mapCause_eq_found {f : ε → δ} {p : Scanner ε α} {s rest : List Char} {a : α} :
    mapCause f p s = .found a rest ↔ p s = .found a rest := by
  unfold mapCause
  cases p s with
  | found b mid => simp
  | missed => simp
  | refused e => simp

/-- Changing the cause of refusals leaves unfound what is. -/
theorem mapCause_eq_missed {f : ε → δ} {p : Scanner ε α} {s : List Char} :
    mapCause f p s = .missed ↔ p s = .missed := by
  unfold mapCause
  cases p s with
  | found b mid => simp
  | missed => simp
  | refused e => simp

/-- A sequence moves on if its first part does and its second does not go back. -/
theorem Moves.bind_left {p : Scanner ε α} {f : α → Scanner ε β} (hp : Moves p)
    (hf : ∀ {a s b rest}, f a s = .found b rest → rest.length ≤ s.length) : Moves (p >>= f) := by
  intro s b rest h
  obtain ⟨a, mid, ha, hb⟩ := bind_eq_found.mp h
  exact Nat.lt_of_le_of_lt (hf hb) (hp ha)

/-- A sequence moves on if its second part does and its first does not go back. -/
theorem Moves.bind_right {p : Scanner ε α} {f : α → Scanner ε β}
    (hp : ∀ {s a rest}, p s = .found a rest → rest.length ≤ s.length) (hf : ∀ a, Moves (f a)) :
    Moves (p >>= f) := by
  intro s b rest h
  obtain ⟨a, mid, ha, hb⟩ := bind_eq_found.mp h
  exact Nat.lt_of_lt_of_le (hf a hb) (hp ha)

/-! ### Alternatives -/

/-- A choice finds what its first alternative finds. -/
theorem orElse_found {p q : Scanner ε α} {s rest : List Char} {a : α} (h : p s = .found a rest) :
    orElse p q s = .found a rest := by
  simp only [orElse, h]

/-- A choice is its second alternative where the first finds nothing. -/
theorem orElse_missed {p q : Scanner ε α} {s : List Char} (h : p s = .missed) :
    orElse p q s = q s := by
  simp only [orElse, h]

/-- A choice finds what its first alternative finds, or its second where the first finds nothing. -/
theorem orElse_eq_found {p q : Scanner ε α} {s rest : List Char} {a : α} :
    orElse p q s = .found a rest ↔
      p s = .found a rest ∨ (p s = .missed ∧ q s = .found a rest) := by
  unfold orElse
  cases p s with
  | found b mid => simp
  | missed => simp
  | refused e => simp

/-- An alternative that misses changes nothing. -/
theorem orElse_of_missed {p q : Scanner ε α} {s : List Char} (h : q s = .missed) :
    orElse p q s = p s := by
  unfold orElse
  cases p s with
  | missed => exact h
  | found a rest => rfl
  | refused e => rfl

/-- A choice moves on if its alternatives do. -/
theorem Moves.orElse {p q : Scanner ε α} (hp : Moves p) (hq : Moves q) : Moves (orElse p q) := by
  intro s a rest h
  rcases orElse_eq_found.mp h with h | ⟨-, h⟩
  · exact hp h
  · exact hq h

private theorem firstOf_nil (s : List Char) : firstOf ([] : List (Scanner ε α)) s = .missed := rfl

/-- A choice of several finds what the first of them finds. -/
theorem firstOf_found {p : Scanner ε α} {ps : List (Scanner ε α)} {s rest : List Char} {a : α}
    (h : p s = .found a rest) : firstOf (p :: ps) s = .found a rest := orElse_found h

/-- A choice of several goes on with the others where the first finds nothing. -/
theorem firstOf_missed {p : Scanner ε α} {ps : List (Scanner ε α)} {s : List Char}
    (h : p s = .missed) : firstOf (p :: ps) s = firstOf ps s := orElse_missed h

/-- What one of several alternatives finds is found by one of them. -/
theorem exists_of_firstOf_eq_found {ps : List (Scanner ε α)} {s rest : List Char} {a : α}
    (h : firstOf ps s = .found a rest) : ∃ p ∈ ps, p s = .found a rest := by
  induction ps with
  | nil => simp [firstOf_nil] at h
  | cons p ps ih =>
    rcases orElse_eq_found.mp h with hp | ⟨-, hps⟩
    · exact ⟨p, List.mem_cons_self, hp⟩
    · obtain ⟨q, hq, hqs⟩ := ih hps
      exact ⟨q, List.mem_cons_of_mem p hq, hqs⟩

/-- Where a choice of several finds nothing, none of them does. -/
theorem missed_of_firstOf {ps : List (Scanner ε α)} {s : List Char}
    (h : firstOf ps s = .missed) : ∀ p ∈ ps, p s = .missed := by
  induction ps with
  | nil => simp
  | cons p ps ih =>
    cases hp : p s with
    | found a rest =>
      rw [firstOf_found hp] at h
      cases h
    | missed =>
      rw [firstOf_missed hp] at h
      exact List.forall_mem_cons.mpr ⟨hp, ih h⟩
    | refused e => simp [firstOf, orElse, hp] at h

/-- Where none of several scanners finds something, their choice does not. -/
theorem firstOf_eq_missed {ps : List (Scanner ε α)} {s : List Char}
    (h : ∀ p ∈ ps, p s = .missed) : firstOf ps s = .missed := by
  induction ps with
  | nil => rfl
  | cons p ps ih =>
    rw [firstOf_missed (h p List.mem_cons_self)]
    exact ih fun q hq ↦ h q (List.mem_cons_of_mem p hq)

/-- Alternatives that find nothing else find what one of them finds. -/
theorem firstOf_of_agree {ps : List (Scanner ε α)} {s rest : List Char} {a : α}
    (h : ∀ q ∈ ps, q s = .missed ∨ q s = .found a rest) (hp : ∃ p ∈ ps, p s = .found a rest) :
    firstOf ps s = .found a rest := by
  induction ps with
  | nil => simp at hp
  | cons q ps ih =>
    obtain ⟨hq, hps⟩ := List.forall_mem_cons.mp h
    rcases hq with hq | hq
    · rw [firstOf_missed hq]
      apply ih hps
      obtain ⟨p, hmem, hp⟩ := hp
      rcases List.mem_cons.mp hmem with rfl | hmem
      · rw [hq] at hp
        cases hp
      · exact ⟨p, hmem, hp⟩
    · exact firstOf_found hq

/-- What may be left out is found where it stands. -/
theorem optional_found {p : Scanner ε α} {s rest : List Char} {a : α} (h : p s = .found a rest) :
    optional p s = .found (some a) rest := by
  simp only [optional, h]

/-- What may be left out is absent where it is not found. -/
theorem optional_missed {p : Scanner ε α} {s : List Char} (h : p s = .missed) :
    optional p s = .found none s := by
  simp only [optional, h]

/-- What may be left out is found or absent. -/
theorem optional_eq_found {p : Scanner ε α} {s rest : List Char} {o : Option α} :
    optional p s = .found o rest ↔
      (∃ a, o = some a ∧ p s = .found a rest) ∨ (o = none ∧ p s = .missed ∧ s = rest) := by
  unfold optional
  cases p s with
  | found b mid => cases o <;> simp [eq_comm]
  | missed => cases o <;> simp
  | refused e => simp

/-! ### Repetition -/

/-- The scanner finds the values in this order, each behind the one before it. -/
inductive Chain (p : Scanner ε α) : List α → List Char → List Char → Prop where
  | nil (s : List Char) : Chain p [] s s
  | cons {a : α} {as : List α} {s mid rest : List Char} (head : p s = .found a mid)
      (tail : Chain p as mid rest) : Chain p (a :: as) s rest

/-- A turn of a repetition that finds something ends it, or reads one piece and goes on behind
it. -/
theorem found_of_manyUpTo_succ {p : Scanner ε α} {n : Nat} {as : List α} {s rest : List Char}
    (h : manyUpTo p (n + 1) s = .found as rest) :
    (p s = .missed ∧ as = [] ∧ s = rest) ∨
      ∃ a mid more, p s = .found a mid ∧ manyUpTo p n mid = .found more rest ∧ as = a :: more := by
  rw [manyUpTo] at h
  cases hp : p s with
  | found a mid =>
    simp only [hp] at h
    cases hm : manyUpTo p n mid with
    | found more last =>
      simp only [hm] at h
      cases h
      exact .inr ⟨a, mid, more, rfl, hm, rfl⟩
    | missed => simp [hm] at h
    | refused e => simp [hm] at h
  | missed =>
    simp only [hp] at h
    cases h
    exact .inl ⟨rfl, rfl, rfl⟩
  | refused e => simp [hp] at h

private theorem chain_of_manyUpTo {p : Scanner ε α} {n : Nat} {as : List α} {s rest : List Char}
    (h : manyUpTo p n s = .found as rest) : Chain p as s rest := by
  induction n generalizing as s with
  | zero =>
    rw [manyUpTo, pure_apply] at h
    cases h
    exact .nil _
  | succ n ih =>
    obtain ⟨-, rfl, rfl⟩ | ⟨a, mid, more, hp, hm, rfl⟩ := found_of_manyUpTo_succ h
    · exact .nil _
    · exact .cons hp (ih hm)

/-- What a repetition finds, it finds piece by piece. -/
theorem chain_of_many {p : Scanner ε α} {as : List α} {s rest : List Char}
    (h : many p s = .found as rest) : Chain p as s rest := chain_of_manyUpTo h

private theorem manyUpTo_of_chain {p : Scanner ε α} {as : List α} {s rest : List Char}
    (h : Chain p as s rest) (hstop : p rest = .missed) (n : Nat) (hn : as.length ≤ n) :
    manyUpTo p n s = .found as rest := by
  induction h generalizing n with
  | nil s =>
    cases n with
    | zero => rfl
    | succ n => simp only [manyUpTo, hstop]
  | @cons a as s mid rest head tail ih =>
    cases n with
    | zero => simp at hn
    | succ n =>
      have htail := ih hstop n (by simpa using hn)
      simp only [manyUpTo, head, htail]

/-- A repetition finds all that can be found piece by piece, if the pieces are no more than the
characters of the text. -/
theorem many_of_chain {p : Scanner ε α} {as : List α} {s rest : List Char}
    (h : Chain p as s rest) (hstop : p rest = .missed) (hlength : as.length ≤ s.length) :
    many p s = .found as rest := manyUpTo_of_chain h hstop s.length hlength

/-- A repetition ends where nothing is found. -/
theorem many_nil_of_missed {p : Scanner ε α} {s : List Char} (h : p s = .missed) :
    many p s = .found [] s := many_of_chain (.nil s) h (Nat.zero_le _)

private theorem length_le_of_manyUpTo {p : Scanner ε α} {n : Nat} {as : List α} {s rest : List Char}
    (h : manyUpTo p n s = .found as rest) : as.length ≤ n := by
  induction n generalizing as s with
  | zero =>
    rw [manyUpTo, pure_apply] at h
    cases h
    exact Nat.le_refl _
  | succ n ih =>
    obtain ⟨-, rfl, rfl⟩ | ⟨a, mid, more, -, hm, rfl⟩ := found_of_manyUpTo_succ h
    · exact Nat.zero_le _
    · exact Nat.succ_le_succ (ih hm)

/-- A repetition finds no more than there are characters. -/
theorem length_le_of_many {p : Scanner ε α} {as : List α} {s rest : List Char}
    (h : many p s = .found as rest) : as.length ≤ s.length := length_le_of_manyUpTo h

/-- A turn of a repetition reads the scanner if it is there, and goes on behind it. -/
theorem manyUpTo_succ (p : Scanner ε α) (k : Nat) :
    manyUpTo p (k + 1) = (do
      match ← optional p with
      | none => pure []
      | some x => do
        let xs ← manyUpTo p k
        pure (x :: xs)) := by
  funext s
  simp only [manyUpTo, bind_apply, optional]
  cases hp : p s with
  | found x rest =>
    simp only [bind_apply]
    cases manyUpTo p k rest <;> rfl
  | missed => rfl
  | refused e => rfl

private theorem missed_of_manyUpTo {p : Scanner ε α} (hp : Moves p) {n : Nat} {as : List α}
    {s rest : List Char} (hn : s.length ≤ n) (h : manyUpTo p n s = .found as rest)
    (hrest : rest ≠ []) : p rest = .missed := by
  induction n generalizing as s with
  | zero =>
    cases h
    exact absurd (List.length_eq_zero_iff.mp (Nat.le_zero.mp hn)) hrest
  | succ n ih =>
    obtain ⟨hmissed, rfl, rfl⟩ | ⟨a, mid, more, ha, hm, rfl⟩ := found_of_manyUpTo_succ h
    · exact hmissed
    · have hlt := hp ha
      exact ih (by omega) hm

/-- A repetition ends where its scanner misses, or at the end of the text. -/
theorem missed_of_many {p : Scanner ε α} (hp : Moves p) {as : List α} {s rest : List Char}
    (h : many p s = .found as rest) (hrest : rest ≠ []) : p rest = .missed :=
  missed_of_manyUpTo hp (Nat.le_refl _) h hrest

/-- Turns can be followed by more turns. -/
theorem Chain.append {p : Scanner ε α} {as bs : List α} {s mid rest : List Char}
    (h : Chain p as s mid) (h' : Chain p bs mid rest) : Chain p (as ++ bs) s rest := by
  induction h with
  | nil s => exact h'
  | cons head _ ih => exact .cons head (ih h')

/-- There are no more turns than characters, if each moves on. -/
theorem Chain.length_le {p : Scanner ε α} (hp : Moves p) {as : List α} {s rest : List Char}
    (h : Chain p as s rest) : as.length ≤ s.length := by
  induction h with
  | nil s => exact Nat.zero_le _
  | cons head _ ih =>
    have hlt := hp head
    rw [List.length_cons]
    omega

/-- What is found piece by piece up to the end of the text begins with all that is found piece by
piece. -/
theorem Chain.exists_of_chain {p : Scanner ε α} (hp : Moves p) {as bs : List α}
    {s mid : List Char} (h : Chain p as s mid) (h' : Chain p bs s []) :
    ∃ more, bs = as ++ more ∧ Chain p more mid [] := by
  induction h generalizing bs with
  | nil s => exact ⟨bs, rfl, h'⟩
  | cons head _ ih =>
    cases h' with
    | nil => exact absurd (hp head) (Nat.not_lt_zero _)
    | cons head' tail' =>
      rw [head] at head'
      cases head'
      obtain ⟨more, rfl, hmore⟩ := ih tail'
      exact ⟨more, rfl, hmore⟩

/-- A repetition finds what is found piece by piece, up to where its scanner misses. -/
theorem many_eq_found_iff {p : Scanner ε α} (hp : Moves p) (hnil : p [] = .missed) {as : List α}
    {s rest : List Char} :
    many p s = .found as rest ↔ Chain p as s rest ∧ p rest = .missed := by
  refine ⟨fun h ↦ ⟨chain_of_many h, ?_⟩, fun ⟨h, hstop⟩ ↦ many_of_chain h hstop (h.length_le hp)⟩
  by_cases hrest : rest = []
  · rw [hrest, hnil]
  · exact missed_of_many hp h hrest

/-- A repetition of a scanner that refuses nothing finds something. -/
theorem exists_many {p : Scanner ε α} (hp : ∀ s e, p s ≠ .refused e) (s : List Char) :
    ∃ as rest, many p s = .found as rest := by
  have hup (n : Nat) : ∀ s, ∃ as rest, manyUpTo p n s = .found as rest := by
    induction n with
    | zero => exact fun s ↦ ⟨[], s, rfl⟩
    | succ n ih =>
      intro s
      cases ha : p s with
      | found a mid =>
        obtain ⟨as, rest, hmany⟩ := ih mid
        exact ⟨a :: as, rest, by simp only [manyUpTo, ha, hmany]⟩
      | missed => exact ⟨[], s, by simp only [manyUpTo, ha]⟩
      | refused e => exact absurd ha (hp s e)
  exact hup s.length s

/-- Pieces that are each found in front of whatever follows them are found in order. -/
theorem chain_of_render {p : Scanner ε α} {render : α → List Char} {as : List α}
    {rest : List Char} (h : ∀ a ∈ as, ∀ mid, p (render a ++ mid) = .found a mid) :
    Chain p as (as.flatMap render ++ rest) rest := by
  induction as with
  | nil => exact .nil rest
  | cons a as ih =>
    rw [List.flatMap_cons, List.append_assoc]
    exact .cons (h a List.mem_cons_self _) (ih fun b hb ↦ h b (List.mem_cons_of_mem a hb))

/-- Pieces that are found in front of a text of a certain form are found in order, if each piece
begins such a text. -/
theorem chain_of_render_of {p : Scanner ε α} {render : α → List Char} {as : List α}
    (Good : List Char → Prop) {rest : List Char} (hrest : Good rest)
    (hrender : ∀ a mid, Good (render a ++ mid))
    (h : ∀ a ∈ as, ∀ mid, Good mid → p (render a ++ mid) = .found a mid) :
    Chain p as (as.flatMap render ++ rest) rest := by
  have hgood (bs : List α) : Good (bs.flatMap render ++ rest) := by
    cases bs with
    | nil => exact hrest
    | cons b bs =>
      rw [List.flatMap_cons, List.append_assoc]
      exact hrender b _
  induction as with
  | nil => exact .nil rest
  | cons a as ih =>
    rw [List.flatMap_cons, List.append_assoc]
    exact .cons (h a List.mem_cons_self _ (hgood as))
      (ih fun b hb ↦ h b (List.mem_cons_of_mem a hb))

/-- Items are no more than the characters of their texts, if no text is empty. -/
theorem length_le_flatMap (render : α → List Char) (as : List α) (h : ∀ a ∈ as, render a ≠ []) :
    as.length ≤ (as.flatMap render).length := by
  induction as with
  | nil => simp
  | cons a as ih =>
    have ha := List.length_pos_iff.mpr (h a List.mem_cons_self)
    have has := ih fun b hb ↦ h b (List.mem_cons_of_mem a hb)
    rw [List.flatMap_cons, List.length_append, List.length_cons]
    omega

/-- What holds of all that a scanner finds holds of the items of a chain. -/
theorem Chain.forall_mem {p : Scanner ε α} {as : List α} {s rest : List Char}
    (h : Chain p as s rest) {Q : α → Prop} (hp : ∀ s a rest, p s = .found a rest → Q a) :
    ∀ a ∈ as, Q a := by
  induction h with
  | nil s => simp
  | cons head tail ih => exact List.forall_mem_cons.mpr ⟨hp _ _ _ head, ih⟩

/-- A text in which values are found one behind the other is made up of what each was found in. -/
theorem Chain.eq_flatMap {p : Scanner ε α} {render : α → List Char} {as : List α}
    {s rest : List Char} (h : Chain p as s rest)
    (hp : ∀ s a rest, p s = .found a rest → s = render a ++ rest) :
    s = as.flatMap render ++ rest := by
  induction h with
  | nil s => rfl
  | cons head _ ih => rw [hp _ _ _ head, ih, List.flatMap_cons, List.append_assoc]

/-- In front of values that begin with none of the characters stands none of them. -/
theorem Chain.stops {p : Scanner ε α} {as : List α} {s rest : List Char} (h : Chain p as s rest)
    {c : Char → Bool} (hp : ∀ s a rest, p s = .found a rest → Stops c s) (hrest : Stops c rest) :
    Stops c s := by
  cases h with
  | nil => exact hrest
  | cons head => exact hp _ _ _ head

/-- What is found in a list with separators is found by the scanner of its items. -/
theorem forall_of_separated {sep : Scanner ε Unit} {p : Scanner ε α} {as : List α}
    {s rest : List Char} (h : separated sep p s = .found as rest) {Q : α → Prop}
    (hp : ∀ s a rest, p s = .found a rest → Q a) : ∀ a ∈ as, Q a := by
  obtain ⟨a, _, ha, h⟩ := bind_eq_found.mp h
  obtain ⟨more, _, hmore, h⟩ := bind_eq_found.mp h
  cases h
  refine List.forall_mem_cons.mpr ⟨hp _ _ _ ha, (chain_of_many hmore).forall_mem ?_⟩
  intro s b rest hb
  obtain ⟨_, _, _, hb⟩ := bind_eq_found.mp hb
  exact hp _ _ _ hb

/-! ### Characters -/

/-- A character of the class is read. -/
theorem satisfy_cons (p : Char → Bool) (c : Char) (rest : List Char) (h : p c = true) :
    (satisfy p : Scanner ε Char) (c :: rest) = .found c rest := by
  simp [satisfy, h]

/-- Nothing is read where no character of the class stands. -/
theorem satisfy_missed {p : Char → Bool} {s : List Char} (h : Stops p s) :
    (satisfy p : Scanner ε Char) s = .missed := by
  cases s with
  | nil => rfl
  | cons c rest =>
    rw [stops_cons] at h
    simp [satisfy, h]

/-- A character is found exactly if it is the first and of the class. -/
theorem satisfy_eq_found {p : Char → Bool} {s rest : List Char} {c : Char} :
    (satisfy p : Scanner ε Char) s = .found c rest ↔ s = c :: rest ∧ p c = true := by
  cases s with
  | nil => simp [satisfy]
  | cons d s =>
    cases hp : p d with
    | false =>
      simp only [satisfy, hp, Bool.false_eq_true, ite_false, reduceCtorEq, List.cons.injEq,
        false_iff, not_and]
      rintro ⟨rfl, rfl⟩
      simp [hp]
    | true =>
      simp only [satisfy, hp, ite_true, Scan.found.injEq, List.cons.injEq]
      constructor
      · rintro ⟨rfl, rfl⟩
        exact ⟨⟨rfl, rfl⟩, hp⟩
      · rintro ⟨⟨rfl, rfl⟩, -⟩
        exact ⟨rfl, rfl⟩

/-- The character is read where it stands. -/
theorem char_cons (c : Char) (rest : List Char) :
    (char c : Scanner ε Unit) (c :: rest) = .found () rest := by
  unfold char
  rw [bind_found (satisfy_cons _ c rest (by simp))]
  rfl

/-- The character is not found where another stands. -/
theorem char_missed {c : Char} {s : List Char} (h : Stops (· == c) s) :
    (char c : Scanner ε Unit) s = .missed := by
  unfold char
  exact bind_missed (satisfy_missed h)

/-- The character is found exactly if it is the first. -/
theorem char_eq_found {c : Char} {s rest : List Char} {u : Unit} :
    (char c : Scanner ε Unit) s = .found u rest ↔ s = c :: rest := by
  constructor
  · intro h
    obtain ⟨d, mid, hd, hu⟩ := bind_eq_found.mp h
    obtain ⟨rfl, hc⟩ := satisfy_eq_found.mp hd
    rw [pure_apply] at hu
    cases hu
    rw [beq_iff_eq] at hc
    rw [hc]
  · rintro rfl
    exact char_cons c rest

/-- Reading a character moves on. -/
theorem moves_satisfy (p : Char → Bool) : Moves (satisfy p : Scanner ε Char) := by
  intro s c rest h
  rw [(satisfy_eq_found.mp h).1]
  exact Nat.lt_succ_self _

/-- Reading the character moves on. -/
theorem moves_char (c : Char) : Moves (char c : Scanner ε Unit) :=
  (moves_satisfy (· == c)).bind_left fun h ↦ by
    cases h
    exact Nat.le_refl _

/-- The text is read where it stands. -/
theorem exactly_append (w rest : List Char) :
    (exactly w : Scanner ε Unit) (w ++ rest) = .found () rest := by
  simp [exactly]

/-- The text is found exactly if it stands in front. -/
theorem exactly_eq_found {w s rest : List Char} {u : Unit} :
    (exactly w : Scanner ε Unit) s = .found u rest ↔ s = w ++ rest := by
  constructor
  · intro h
    unfold exactly at h
    split at h
    · next hw =>
      obtain ⟨t, rfl⟩ := List.isPrefixOf_iff_prefix.mp hw
      simp only [List.drop_left, Scan.found.injEq, true_and] at h
      rw [h]
    · cases h
  · rintro rfl
    exact exactly_append w rest

/-- Reading a text that is not empty moves on. -/
theorem moves_exactly {w : List Char} (hw : w ≠ []) : Moves (exactly w : Scanner ε Unit) := by
  intro s _ rest h
  rw [exactly_eq_found.mp h, List.length_append]
  exact Nat.lt_add_of_pos_left (List.length_pos_iff.mpr hw)

/-- The text is not found where it does not stand in front. -/
theorem exactly_missed {w s : List Char} (h : ¬ w <+: s) :
    (exactly w : Scanner ε Unit) s = .missed := by
  unfold exactly
  rw [if_neg]
  rwa [List.isPrefixOf_iff_prefix]

/-- A text is not found where its first character does not stand. -/
theorem exactly_missed_of_stops {c : Char} {w s : List Char} (h : Stops (· == c) s) :
    (exactly (c :: w) : Scanner ε Unit) s = .missed := by
  apply exactly_missed
  rintro ⟨t, rfl⟩
  simp at h

/-- A run is read up to where it ends. -/
theorem run1_append {p : Char → Bool} {w rest : List Char} (hne : w ≠ [])
    (hw : ∀ c ∈ w, p c = true) (h : Stops p rest) :
    (run1 p : Scanner ε (List Char)) (w ++ rest) = .found w rest := by
  unfold run1
  rw [takeWhile_append_of_stops hw h, dropWhile_append_of_stops hw h]
  simp [hne]

/-- There is no run where no character of it stands. -/
theorem run1_missed {p : Char → Bool} {s : List Char} (h : Stops p s) :
    (run1 p : Scanner ε (List Char)) s = .missed := by
  unfold run1
  rw [h.takeWhile_eq_nil]
  rfl

/-- A run ends behind all its characters. -/
theorem stops_dropWhile (p : Char → Bool) (s : List Char) : Stops p (s.dropWhile p) := by
  intro c hc
  induction s with
  | nil => simp at hc
  | cons d s ih =>
    rw [List.dropWhile_cons] at hc
    split at hc
    · exact ih hc
    · next hd =>
      simp only [List.head?_cons, Option.mem_def, Option.some.injEq] at hc
      rw [← hc]
      simpa using hd

/-- A run is found exactly if it stands in front, is not empty and ends there. -/
theorem run1_eq_found {p : Char → Bool} {s w rest : List Char} :
    (run1 p : Scanner ε (List Char)) s = .found w rest ↔
      s = w ++ rest ∧ w ≠ [] ∧ (∀ c ∈ w, p c = true) ∧ Stops p rest := by
  constructor
  · intro h
    unfold run1 at h
    split at h
    · cases h
    · next hne =>
      rw [Scan.found.injEq] at h
      obtain ⟨rfl, rfl⟩ := h
      exact ⟨List.takeWhile_append_dropWhile.symm, by simpa using hne,
        List.all_eq_true.mp List.all_takeWhile, stops_dropWhile p s⟩
  · rintro ⟨rfl, hne, hw, h⟩
    exact run1_append hne hw h

/-- Reading a run moves on. -/
theorem moves_run1 (p : Char → Bool) : Moves (run1 p : Scanner ε (List Char)) := by
  intro s w rest h
  obtain ⟨rfl, hne, -, -⟩ := run1_eq_found.mp h
  rw [List.length_append]
  exact Nat.lt_add_of_pos_left (List.length_pos_iff.mpr hne)

/-- As many characters of a class are read as are asked for. -/
theorem exactlyOf_append {p : Char → Bool} {w rest : List Char} {n : Nat} (hn : w.length = n)
    (hw : ∀ c ∈ w, p c = true) :
    (exactlyOf p n : Scanner ε (List Char)) (w ++ rest) = .found w rest := by
  subst hn
  have hall : w.all p = true := List.all_eq_true.mpr hw
  simp only [exactlyOf, List.take_left, List.drop_left, hall, and_self, ite_true]

/-- Characters of a class are found exactly if so many stand in front. -/
theorem exactlyOf_eq_found {p : Char → Bool} {s w rest : List Char} {n : Nat} :
    (exactlyOf p n : Scanner ε (List Char)) s = .found w rest ↔
      s = w ++ rest ∧ w.length = n ∧ ∀ c ∈ w, p c = true := by
  constructor
  · intro h
    unfold exactlyOf at h
    split at h
    · next hp =>
      rw [Scan.found.injEq] at h
      obtain ⟨rfl, rfl⟩ := h
      exact ⟨(List.take_append_drop n s).symm, hp.1, List.all_eq_true.mp hp.2⟩
    · cases h
  · rintro ⟨rfl, hn, hw⟩
    exact exactlyOf_append hn hw

/-- Not even one character of a class is found where none stands. -/
theorem exactlyOf_missed {p : Char → Bool} {s : List Char} {n : Nat} (hn : n ≠ 0)
    (h : Stops p s) : (exactlyOf p n : Scanner ε (List Char)) s = .missed := by
  unfold exactlyOf
  rw [if_neg]
  rintro ⟨hlength, hall⟩
  cases s with
  | nil => simp at hlength; omega
  | cons c s =>
    rw [stops_cons] at h
    cases n with
    | zero => exact hn rfl
    | succ n => simp [h] at hall

/-- Digits are read up to where they end. -/
theorem digits_append {w rest : List Char} (hne : w ≠ []) (hw : ∀ c ∈ w, c.isDigit = true)
    (h : Stops Char.isDigit rest) :
    (digits : Scanner ε (List Char)) (w ++ rest) = .found w rest := run1_append hne hw h

/-- The look ahead passes where no character of the class stands. -/
theorem notBefore_of_stops {p : Char → Bool} {s : List Char} (h : Stops p s) :
    (notBefore p : Scanner ε Unit) s = .found () s := by
  cases s with
  | nil => rfl
  | cons c s =>
    rw [stops_cons] at h
    simp [notBefore, h]

/-- The look ahead passes exactly where no character of the class stands, and reads nothing. -/
theorem notBefore_eq_found {p : Char → Bool} {s rest : List Char} {u : Unit} :
    (notBefore p : Scanner ε Unit) s = .found u rest ↔ s = rest ∧ Stops p s := by
  cases s with
  | nil => simp [notBefore, eq_comm]
  | cons c s => cases hp : p c <;> simp [notBefore, hp]

/-- The look ahead fails in front of a character of the class. -/
theorem notBefore_missed {p : Char → Bool} {c : Char} {rest : List Char} (h : p c = true) :
    (notBefore p : Scanner ε Unit) (c :: rest) = .missed := by
  simp [notBefore, h]

/-! ### Blanks -/

/-- Blanks are dropped, if there are any. -/
theorem blanks_apply (s : List Char) :
    (blanks : Scanner ε Unit) s = .found () (s.dropWhile Char.isWhitespace) := rfl

/-- Blanks leave no more than there was. -/
theorem length_le_blanks {s rest : List Char} {u : Unit}
    (h : (blanks : Scanner ε Unit) s = .found u rest) : rest.length ≤ s.length := by
  rw [blanks_apply, Scan.found.injEq] at h
  rw [← h.2]
  exact (List.dropWhile_sublist Char.isWhitespace).length_le

/-- No blanks are read where none stand. -/
theorem blanks_of_stops {s : List Char} (h : Stops Char.isWhitespace s) :
    (blanks : Scanner ε Unit) s = .found () s := by
  rw [blanks_apply, h.dropWhile_eq]

/-- Blanks between two words, of which there is at least one. -/
structure IsGap (gap : List Char) : Prop where
  ne_nil : gap ≠ []
  blank : ∀ c ∈ gap, c.isWhitespace = true

/-- A space is a gap. -/
theorem IsGap.space : IsGap [' '] :=
  ⟨List.cons_ne_nil ' ' [], List.forall_mem_singleton.mpr rfl⟩

/-- Blanks are read up to where they end. -/
theorem blanks_append {gap s : List Char} (hgap : ∀ c ∈ gap, c.isWhitespace = true)
    (h : Stops Char.isWhitespace s) : (blanks : Scanner ε Unit) (gap ++ s) = .found () s := by
  rw [blanks_apply, dropWhile_append_of_stops hgap h]

/-- A space is read. -/
theorem blanks_space {s : List Char} (h : Stops Char.isWhitespace s) :
    (blanks : Scanner ε Unit) (' ' :: s) = .found () s := blanks_append IsGap.space.blank h

/-- A gap is read up to where it ends. -/
theorem blanks1_append {gap s : List Char} (hgap : IsGap gap) (h : Stops Char.isWhitespace s) :
    (blanks1 : Scanner ε Unit) (gap ++ s) = .found () s := by
  unfold blanks1
  exact bind_found (run1_append hgap.ne_nil hgap.blank h)

/-- A space is read where a blank is asked for. -/
theorem blanks1_space {s : List Char} (h : Stops Char.isWhitespace s) :
    (blanks1 : Scanner ε Unit) (' ' :: s) = .found () s := blanks1_append .space h

/-- Reading a blank or more moves on. -/
theorem moves_blanks1 : Moves (blanks1 : Scanner ε Unit) := by
  intro s _ rest h
  obtain ⟨w, mid, hw, h⟩ := bind_eq_found.mp h
  cases h
  obtain ⟨rfl, hne, -⟩ := run1_eq_found.mp hw
  rw [List.length_append]
  exact Nat.lt_add_of_pos_left (List.length_pos_iff.mpr hne)

/-- A blank is not found where none stands. -/
theorem blanks1_missed {s : List Char} (h : Stops Char.isWhitespace s) :
    (blanks1 : Scanner ε Unit) s = .missed := by
  unfold blanks1
  exact bind_missed (run1_missed h)

/-! ### Whole texts -/

/-- What is found up to the end is found as a whole. -/
theorem whole_of_found {p : Scanner ε α} {s : List Char} {a : α} (h : p s = .found a []) :
    whole p s = .found a [] := by
  simp only [whole, h]

/-- A text is found as a whole exactly if nothing is left of it. -/
theorem whole_eq_found {p : Scanner ε α} {s rest : List Char} {a : α} :
    whole p s = .found a rest ↔ p s = .found a [] ∧ rest = [] := by
  unfold whole
  cases hp : p s with
  | found b mid => cases mid <;> simp [eq_comm]
  | missed => simp
  | refused e => simp

/-- What is found up to the end is the value of the text. -/
theorem whole?_of_found {p : Scanner ε α} {s : List Char} {a : α} (h : p s = .found a []) :
    whole? p s = some a := by
  simp only [whole?, whole_of_found h]

/-- A text has a value exactly if nothing is left of it. -/
theorem whole?_eq_some {p : Scanner ε α} {s : List Char} {a : α} :
    whole? p s = some a ↔ p s = .found a [] := by
  unfold whole? whole
  cases hp : p s with
  | found b mid => cases mid <;> simp
  | missed => simp
  | refused e => simp

/-! ### What a scanner reads -/

end Scanner

/-- The outcome where more text stands behind. -/
def Scan.before (t : List Char) : Scan ε α → Scan ε α
  | .found a rest => .found a (rest ++ t)
  | .missed => .missed
  | .refused e => .refused e

/-- What is found to leave just the other text leaves nothing. -/
theorem Scan.before_eq_found {x : Scan ε α} {t : List Char} {a : α} :
    x.before t = .found a t ↔ x = .found a [] := by
  cases x <;> simp [before]

/-- A result in front of a text is missed exactly if it is. -/
theorem Scan.before_eq_missed {x : Scan ε α} {t : List Char} :
    x.before t = .missed ↔ x = .missed := by
  cases x <;> simp [before]

namespace Scanner

variable {ε δ α β : Type}

/-- The scanner refuses nothing, what it reads consists of characters of the class, and what stands
behind makes no difference to it where the class does not go on. -/
structure Within (P : Char → Bool) (p : Scanner ε α) : Prop where
  reads : ∀ {s a rest}, p s = .found a rest → ∃ w, s = w ++ rest ∧ ∀ c ∈ w, P c = true
  accepts : ∀ s e, p s ≠ .refused e
  before : ∀ s {t}, Stops P t → p (s ++ t) = (p s).before t

namespace Within

variable {P : Char → Bool}

/-- An answer without reading reads no character of another class. -/
protected theorem pure (a : α) : Within P (pure a : Scanner ε α) where
  reads h := by
    cases h
    exact ⟨[], rfl, by simp⟩
  accepts s e h := by cases h
  before _ _ _ := rfl

/-- A sequence stays within a class if its parts do. -/
protected theorem bind {p : Scanner ε α} {f : α → Scanner ε β} (hp : Within P p)
    (hf : ∀ a, Within P (f a)) : Within P (p >>= f) where
  reads h := by
    obtain ⟨a, mid, ha, hb⟩ := bind_eq_found.mp h
    obtain ⟨w, rfl, hw⟩ := hp.reads ha
    obtain ⟨v, rfl, hv⟩ := (hf a).reads hb
    exact ⟨w ++ v, (List.append_assoc w v _).symm, List.forall_mem_append.mpr ⟨hw, hv⟩⟩
  accepts s e h := by
    rw [bind_apply] at h
    cases ha : p s with
    | found a mid => rw [ha] at h; exact (hf a).accepts mid e h
    | missed => simp [ha] at h
    | refused e' => exact hp.accepts s e' ha
  before s t ht := by
    rw [bind_apply, bind_apply, hp.before s ht]
    cases p s with
    | found a mid => exact (hf a).before mid ht
    | missed => rfl
    | refused e => rfl

/-- A choice stays within a class if its alternatives do. -/
protected theorem orElse {p q : Scanner ε α} (hp : Within P p) (hq : Within P q) :
    Within P (orElse p q) where
  reads h := by
    rcases orElse_eq_found.mp h with h | ⟨-, h⟩
    · exact hp.reads h
    · exact hq.reads h
  accepts s e h := by
    unfold orElse at h
    cases ha : p s with
    | found a mid => simp [ha] at h
    | missed => simp only [ha] at h; exact hq.accepts s e h
    | refused e' => exact hp.accepts s e' ha
  before s t ht := by
    unfold orElse
    rw [hp.before s ht]
    cases p s with
    | found a mid => rfl
    | missed => exact hq.before s ht
    | refused e => rfl

/-- What may be left out stays within a class if it does where it stands. -/
protected theorem optional {p : Scanner ε α} (hp : Within P p) : Within P (optional p) where
  reads h := by
    rcases optional_eq_found.mp h with ⟨a, -, ha⟩ | ⟨-, -, rfl⟩
    · exact hp.reads ha
    · exact ⟨[], rfl, by simp⟩
  accepts s e h := by
    unfold optional at h
    cases ha : p s with
    | found a mid => simp [ha] at h
    | missed => simp [ha] at h
    | refused e' => exact hp.accepts s e' ha
  before s t ht := by
    unfold optional
    rw [hp.before s ht]
    cases p s <;> rfl

/-- A value that may be there stays within every class. -/
protected theorem ofOption (o : Option α) : Within P (ofOption o : Scanner ε α) := by
  cases o with
  | some a => exact .pure a
  | none => exact { reads := nofun, accepts := nofun, before := fun _ _ _ ↦ rfl }

/-- What finds nothing stays within every class. -/
protected theorem miss : Within P (miss : Scanner ε α) := .ofOption none

/-- A character of a class stays within a wider one. -/
protected theorem satisfy {p : Char → Bool} (h : ∀ c, p c = true → P c = true) :
    Within P (satisfy p : Scanner ε Char) where
  reads {s c rest} hc := by
    obtain ⟨rfl, hp⟩ := satisfy_eq_found.mp hc
    exact ⟨[c], rfl, by simpa using h c hp⟩
  accepts s e he := by
    cases s with
    | nil => cases he
    | cons c s =>
      rw [Scanner.satisfy] at he
      split at he <;> simp at he
  before s t ht := by
    cases s with
    | nil => exact satisfy_missed (ht.mono h)
    | cons c s =>
      rw [List.cons_append, Scanner.satisfy, Scanner.satisfy]
      split <;> rfl

/-- A character stays within its class. -/
protected theorem char {c : Char} (h : P c = true) : Within P (char c : Scanner ε Unit) :=
  .bind (.satisfy fun d hd ↦ by rw [beq_iff_eq] at hd; rw [hd, h]) fun _ ↦ .pure ()

/-- A run of a class stays within a wider one. -/
protected theorem run1 {p : Char → Bool} (h : ∀ c, p c = true → P c = true) :
    Within P (run1 p : Scanner ε (List Char)) where
  reads {s w rest} hw := by
    obtain ⟨rfl, -, hp, -⟩ := run1_eq_found.mp hw
    exact ⟨w, rfl, fun c hc ↦ h c (hp c hc)⟩
  accepts s e he := by
    unfold Scanner.run1 at he
    split at he <;> cases he
  before s t ht := by
    have hp : Stops p t := ht.mono h
    unfold Scanner.run1
    rw [takeWhile_append_left hp, dropWhile_append_left hp]
    split <;> rfl

/-- Characters of a class stay within a wider one. -/
protected theorem exactlyOf {p : Char → Bool} {n : Nat} (h : ∀ c, p c = true → P c = true) :
    Within P (exactlyOf p n : Scanner ε (List Char)) where
  reads {s w rest} hw := by
    obtain ⟨rfl, -, hp⟩ := exactlyOf_eq_found.mp hw
    exact ⟨w, rfl, fun c hc ↦ h c (hp c hc)⟩
  accepts s e he := by
    unfold Scanner.exactlyOf at he
    split at he <;> cases he
  before s t ht := by
    cases hs : (Scanner.exactlyOf p n : Scanner ε (List Char)) s with
    | found w rest =>
      obtain ⟨rfl, hn, hw⟩ := exactlyOf_eq_found.mp hs
      rw [List.append_assoc, exactlyOf_append hn hw]
      rfl
    | missed =>
      cases hst : (Scanner.exactlyOf p n : Scanner ε (List Char)) (s ++ t) with
      | found w rest =>
        -- What is found in `s ++ t` ends within `s`, since `t` does not go on with the class.
        obtain ⟨heq, hn, hw⟩ := exactlyOf_eq_found.mp hst
        obtain ⟨v, rfl⟩ := exists_of_append_eq (ht.mono h) hw heq
        rw [exactlyOf_append hn hw] at hs
        cases hs
      | missed => rfl
      | refused e => unfold Scanner.exactlyOf at hst; split at hst <;> cases hst
    | refused e => unfold Scanner.exactlyOf at hs; split at hs <;> cases hs

/-- A text stays within the class of its characters. -/
protected theorem exactly {w : List Char} (h : ∀ c ∈ w, P c = true) :
    Within P (exactly w : Scanner ε Unit) where
  reads {s _ rest} hu := ⟨w, exactly_eq_found.mp hu, h⟩
  accepts s e he := by
    unfold Scanner.exactly at he
    split at he <;> cases he
  before s t ht := by
    by_cases hs : w <+: s
    · obtain ⟨rest, rfl⟩ := hs
      rw [List.append_assoc, exactly_append, exactly_append]
      rfl
    · rw [exactly_missed hs, exactly_missed]
      · rfl
      · rintro ⟨rest, heq⟩
        obtain ⟨v, rfl⟩ := exists_of_append_eq ht h heq.symm
        exact hs ⟨v, rfl⟩

/-- What begins with a given character reads something. -/
theorem moves_char {c : Char} {f : Unit → Scanner ε α} (hf : ∀ u, Within P (f u)) :
    Moves (char c >>= f) := by
  apply (Scanner.moves_char c).bind_left
  intro u s a rest h
  obtain ⟨w, rfl, -⟩ := (hf u).reads h
  rw [List.length_append]
  omega

private theorem manyUpTo_ne_refused {p : Scanner ε α} (hp : Within P p) (n : Nat) (s : List Char)
    (e : ε) : manyUpTo p n s ≠ .refused e := by
  induction n generalizing s with
  | zero => exact nofun
  | succ n ih =>
    intro h
    rw [manyUpTo] at h
    cases ha : p s with
    | found a mid =>
      cases hm : manyUpTo p n mid with
      | found as' last => simp [ha, hm] at h
      | missed => simp [ha, hm] at h
      | refused e' =>
        simp only [ha, hm, Scan.refused.injEq] at h
        exact ih mid (h ▸ hm)
    | missed => simp [ha] at h
    | refused e' => exact hp.accepts s e' ha

-- As many turns as there are characters are enough, whatever follows.
private theorem manyUpTo_before {p : Scanner ε α} (hp : Within P p) (hmoves : Moves p)
    {t : List Char} (ht : Stops P t) {n m : Nat} {s : List Char} (hn : s.length ≤ n)
    (hm : s.length ≤ m) : manyUpTo p m (s ++ t) = (manyUpTo p n s).before t := by
  have hnil : p [] = .missed := by
    cases h : p [] with
    | found a rest => exact absurd (hmoves h) (Nat.not_lt_zero _)
    | missed => rfl
    | refused e => exact absurd h (hp.accepts [] e)
  induction n generalizing m s with
  | zero =>
    obtain rfl : s = [] := List.length_eq_zero_iff.mp (Nat.le_zero.mp hn)
    have hmissed : p t = .missed := by
      have hbefore := hp.before [] ht
      rwa [hnil] at hbefore
    cases m with
    | zero => rfl
    | succ m =>
      simp only [List.nil_append, manyUpTo, hmissed]
      rfl
  | succ n ih =>
    cases m with
    | zero =>
      obtain rfl : s = [] := List.length_eq_zero_iff.mp (Nat.le_zero.mp hm)
      simp only [manyUpTo, hnil]
      rfl
    | succ m =>
      rw [manyUpTo, manyUpTo]
      simp only [hp.before s ht]
      cases ha : p s with
      | found a mid =>
        have hlt := hmoves ha
        simp only [Scan.before, ih (by omega : mid.length ≤ n) (by omega : mid.length ≤ m)]
        cases manyUpTo p n mid <;> rfl
      | missed => rfl
      | refused e => rfl

/-- A repetition of a scanner that reads something each time. -/
protected theorem many {p : Scanner ε α} (hp : Within P p) (hmoves : Moves p) :
    Within P (many p) where
  reads h := by
    have hchain := chain_of_many h
    clear h
    induction hchain with
    | nil s => exact ⟨[], rfl, by simp⟩
    | cons head _ ih =>
      obtain ⟨w, rfl, hw⟩ := hp.reads head
      obtain ⟨v, rfl, hv⟩ := ih
      exact ⟨w ++ v, (List.append_assoc w v _).symm, List.forall_mem_append.mpr ⟨hw, hv⟩⟩
  accepts s e := manyUpTo_ne_refused hp s.length s e
  before s t ht := by
    apply manyUpTo_before hp hmoves ht (Nat.le_refl _)
    rw [List.length_append]
    omega

/-- Where the scanner finds nothing, it misses. -/
theorem eq_missed {p : Scanner ε α} (hp : Within P p) {s : List Char}
    (h : ∀ a rest, p s ≠ .found a rest) : p s = .missed := by
  cases ha : p s with
  | found a rest => exact absurd ha (h a rest)
  | missed => rfl
  | refused e => exact absurd ha (hp.accepts s e)

end Within

end Scanner

end SensorQuery
