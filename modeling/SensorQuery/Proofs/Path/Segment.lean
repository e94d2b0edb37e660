import SensorQuery.Model.Key
import SensorQuery.Path.Segment
import SensorQuery.Proofs.Scanner
import SensorQuery.Proofs.Number.Numeral
import SensorQuery.Proofs.Text.Quoted

/-!
# Segments read back

A segment is written with its name, its key in parentheses and its indices in brackets. If its name
may be written and its key is the text of a key, it is read from what was written, and so is a list
of segments.
-/

namespace SensorQuery

open Scanner

namespace Segment

variable {ε : Type}

/-- An index in brackets. -/
def indexText (i : UInt64) : List Char := '[' :: Nat.toDigits 10 i.toNat ++ [']']

/-- A key in parentheses. -/
def keyText (key : String) : List Char := '(' :: key.toList ++ [')']

/-- The segment as a path writes it. -/
def text (s : Segment) : List Char :=
  '/' :: s.name.toList ++ (s.key.map keyText).getD [] ++ s.indices.flatMap indexText

/-! ### Keys -/

/-- A piece of a text in quotes: two quotes, or a run without quotes. -/
def quotedPiece : Scanner ε (List Char) :=
  orElse
    (do
      exactly ['\'', '\'']
      pure ['\'', '\''])
    (run1 (· != '\''))

/-- A doubled quote is a piece of a text in quotes. -/
theorem quotedPiece_quotes (rest : List Char) :
    (quotedPiece : Scanner ε (List Char)) ('\'' :: '\'' :: rest) = .found ['\'', '\''] rest := by
  apply orElse_found
  exact bind_found (exactly_append ['\'', '\''] rest)

private theorem quotedPiece_run {w rest : List Char} (hne : w ≠ []) (hw : '\'' ∉ w)
    (h : Stops (· != '\'') rest) :
    (quotedPiece : Scanner ε (List Char)) (w ++ rest) = .found w rest := by
  have hclass : ∀ c ∈ w, (c != '\'') = true := fun c hc ↦
    bne_iff_ne.mpr (ne_of_mem_of_not_mem hc hw)
  unfold quotedPiece
  rw [orElse_missed]
  · exact run1_append hne hclass h
  · apply bind_missed
    obtain ⟨c, w, rfl⟩ := List.exists_cons_of_ne_nil hne
    apply exactly_missed_of_stops
    simpa using hclass c List.mem_cons_self

/-- A single quote is no piece of a text in quotes. -/
theorem quotedPiece_missed {rest : List Char} (h : Stops (· == '\'') rest) :
    (quotedPiece : Scanner ε (List Char)) ('\'' :: rest) = .missed := by
  unfold quotedPiece
  rw [orElse_missed]
  · exact run1_missed ((stops_cons _ _ _).mpr (by decide))
  · apply bind_missed
    apply exactly_missed
    rintro ⟨t, ht⟩
    cases ht
    simp at h

private theorem stops_doubled (s rest : List Char) (h : ∀ c ∈ s.head?, c = '\'') :
    Stops (· != '\'') (Text.doubled s ++ '\'' :: rest) := by
  cases s with
  | nil => simp [Text.doubled]
  | cons c s =>
    have hc : c = '\'' := h c rfl
    simp [Text.doubled, hc]

private theorem exists_chain_doubled (s rest : List Char) :
    ∃ pieces, Chain (quotedPiece : Scanner ε (List Char)) pieces (Text.doubled s ++ '\'' :: rest)
      ('\'' :: rest) ∧ pieces.flatten = Text.doubled s ∧ ∀ w ∈ pieces, w ≠ [] := by
  induction hn : s.length using Nat.strongRecOn generalizing s with
  | ind n ih =>
    subst hn
    cases s with
    | nil => exact ⟨[], .nil _, rfl, fun w hw ↦ by cases hw⟩
    | cons c s =>
      by_cases hc : c = '\''
      · subst hc
        obtain ⟨pieces, hchain, hflat, hne⟩ := ih s.length (by simp) s rfl
        refine ⟨['\'', '\''] :: pieces, .cons (quotedPiece_quotes _) hchain, ?_, ?_⟩
        · simp [Text.doubled, hflat]
        · exact List.forall_mem_cons.mpr ⟨by decide, hne⟩
      · -- The run up to the next quote is one piece.
        let w := (c :: s).takeWhile (· != '\'')
        let t := (c :: s).dropWhile (· != '\'')
        have hsplit : w ++ t = c :: s := List.takeWhile_append_dropWhile
        have hw : '\'' ∉ w := fun hmem ↦ by
          simpa using List.all_eq_true.mp List.all_takeWhile _ hmem
        have hwne : w ≠ [] := by simp [w, hc]
        have hshort : t.length < (c :: s).length := by
          have hlength := congrArg List.length hsplit
          have hpos := List.length_pos_iff.mpr hwne
          rw [List.length_append] at hlength
          omega
        have ht : ∀ c ∈ t.head?, c = '\'' := fun c hc ↦ by
          simpa using stops_dropWhile (· != '\'') _ c hc
        obtain ⟨pieces, hchain, hflat, hne⟩ := ih t.length hshort t rfl
        have htext : Text.doubled (c :: s) = w ++ Text.doubled t := by
          rw [← hsplit, Text.doubled_append, Text.doubled_of_not_mem hw]
        rw [htext, List.append_assoc]
        refine ⟨w :: pieces, .cons (quotedPiece_run hwne hw (stops_doubled t rest ht)) hchain, ?_,
          List.forall_mem_cons.mpr ⟨hwne, hne⟩⟩
        rw [List.flatten_cons, hflat]

private theorem scanQuoted_quote (s : List Char) {rest : List Char} (h : Stops (· == '\'') rest) :
    (scanQuoted : Scanner ε (List Char)) (Text.quote s ++ rest) = .found (Text.quote s) rest := by
  obtain ⟨pieces, hchain, hflat, hne⟩ := exists_chain_doubled (ε := ε) s rest
  have hlength : pieces.length ≤ (Text.doubled s ++ '\'' :: rest).length := by
    have hpieces := length_le_flatMap id pieces hne
    rw [List.flatMap_id, hflat] at hpieces
    rw [List.length_append]
    omega
  have hmany : many quotedPiece (Text.doubled s ++ '\'' :: rest) = .found pieces ('\'' :: rest) :=
    many_of_chain hchain (quotedPiece_missed h) hlength
  unfold scanQuoted Text.quote
  simp only [List.cons_append, List.append_assoc, List.nil_append]
  rw [bind_found (char_cons '\'' _)]
  refine (bind_found hmany).trans ?_
  rw [bind_found (char_cons '\'' rest), hflat]
  rfl

private theorem exists_doubled_of_quotedPiece {s w rest : List Char}
    (h : (quotedPiece : Scanner ε (List Char)) s = .found w rest) :
    s = w ++ rest ∧ ∃ t, w = Text.doubled t := by
  rcases orElse_eq_found.mp h with h | ⟨-, h⟩
  · obtain ⟨_, mid, hquotes, hpure⟩ := bind_eq_found.mp h
    cases hpure
    exact ⟨exactly_eq_found.mp hquotes, ['\''], rfl⟩
  · obtain ⟨rfl, -, hw, -⟩ := run1_eq_found.mp h
    exact ⟨rfl, w, (Text.doubled_of_not_mem fun hmem ↦ by simpa using hw _ hmem).symm⟩

private theorem exists_doubled_flatten {pieces : List (List Char)}
    (h : ∀ w ∈ pieces, ∃ t, w = Text.doubled t) : ∃ s, pieces.flatten = Text.doubled s := by
  induction pieces with
  | nil => exact ⟨[], rfl⟩
  | cons w pieces ih =>
    obtain ⟨⟨t, rfl⟩, hmore⟩ := List.forall_mem_cons.mp h
    obtain ⟨s, hs⟩ := ih hmore
    exact ⟨t ++ s, by rw [List.flatten_cons, hs, Text.doubled_append]⟩

/-- A key in quotes is a quoted text that no quote follows, and nothing else. -/
theorem scanQuoted_eq_found_iff {raw w rest : List Char} :
    (scanQuoted : Scanner ε (List Char)) raw = .found w rest ↔
      raw = w ++ rest ∧ (∃ s, w = Text.quote s) ∧ Stops (· == '\'') rest := by
  constructor
  · intro h
    obtain ⟨_, mid, hopen, h⟩ := bind_eq_found.mp h
    obtain ⟨pieces, back, hpieces, h⟩ := bind_eq_found.mp h
    obtain ⟨_, last, hclose, h⟩ := bind_eq_found.mp h
    cases h
    cases char_eq_found.mp hclose
    have hmoves : Moves (quotedPiece : Scanner ε (List Char)) :=
      ((moves_exactly (by simp)).bind_left fun h ↦ by cases h; exact Nat.le_refl _).orElse
        (moves_run1 _)
    obtain ⟨hchain, hstop⟩ := (many_eq_found_iff hmoves rfl).mp hpieces
    obtain ⟨s, hs⟩ := exists_doubled_flatten
      (hchain.forall_mem fun _ _ _ h ↦ (exists_doubled_of_quotedPiece h).2)
    have htext : mid = pieces.flatMap id ++ '\'' :: rest :=
      hchain.eq_flatMap fun _ _ _ h ↦ (exists_doubled_of_quotedPiece h).1
    refine ⟨?_, ⟨s, by rw [hs]; rfl⟩, ?_⟩
    · rw [char_eq_found.mp hopen, htext]
      simp
    · rcases stops_or_exists '\'' rest with hrest | ⟨t, rfl⟩
      · exact hrest
      · cases (quotedPiece_quotes t).symm.trans hstop
  · rintro ⟨rfl, ⟨s, rfl⟩, hrest⟩
    exact scanQuoted_quote s hrest

-- What stands between parentheses is one piece, up to the parenthesis that closes it.
private theorem keyPiece_text (k : Key) (rest : List Char) :
    (orElse scanQuoted (run1 fun c ↦ c != ')' && c != '\'') : Scanner ε (List Char))
      (k.text ++ ')' :: rest) = .found k.text (')' :: rest) := by
  have hquote (s : List Char) : (orElse scanQuoted (run1 fun c ↦ c != ')' && c != '\'') :
      Scanner ε (List Char)) (Text.quote s ++ ')' :: rest) = .found (Text.quote s) (')' :: rest) :=
    orElse_found (scanQuoted_quote s ((stops_cons _ _ _).mpr (by decide)))
  cases k with
  | string s => exact hquote _
  | uuid u => exact hquote _
  | long n =>
    have hchars : ∀ c ∈ (Key.long n).text, c = '-' ∨ c.isDigit = true := by
      intro c hc
      rcases List.mem_append.mp hc with hc | hc
      · left
        split at hc
        · exact List.mem_singleton.mp hc
        · cases hc
      · exact .inr (Numeral.isDigit_toDigits _ c hc)
    have hplain : ∀ c ∈ (Key.long n).text, c ≠ ')' ∧ c ≠ '\'' := by
      intro c hc
      rcases hchars c hc with rfl | hdigit
      · decide
      · constructor <;> rintro rfl <;> exact absurd hdigit (by decide)
    have hne : (Key.long n).text ≠ [] := by
      simp [Key.text, Numeral.signed, Nat.toDigits_ne_nil]
    rw [orElse_missed]
    · refine run1_append hne (fun c hc ↦ ?_) ((stops_cons _ _ _).mpr (by decide))
      simpa using hplain c hc
    · apply bind_missed
      apply char_missed
      obtain ⟨c, s, hs⟩ := List.exists_cons_of_ne_nil hne
      rw [hs, List.cons_append, stops_cons]
      simpa using (hplain c (hs ▸ List.mem_cons_self)).2

/-- A key ends at its parenthesis. -/
theorem keyPiece_missed (rest : List Char) :
    (orElse scanQuoted (run1 fun c ↦ c != ')' && c != '\'') : Scanner ε (List Char))
      (')' :: rest) = .missed := by
  rw [orElse_missed]
  · exact run1_missed ((stops_cons _ _ _).mpr (by decide))
  · exact bind_missed (char_missed ((stops_cons _ _ _).mpr (by decide)))

/-- The text of a key is read from its parentheses. -/
theorem scanKey_text (k : Key) (rest : List Char) :
    (scanKey : Scanner ε String) (keyText (String.ofList k.text) ++ rest) =
      .found (String.ofList k.text) rest := by
  have hmany : many (orElse scanQuoted (run1 fun c ↦ c != ')' && c != '\'') :
      Scanner ε (List Char)) (k.text ++ ')' :: rest) = .found [k.text] (')' :: rest) :=
    many_of_chain (.cons (keyPiece_text k rest) (.nil _)) (keyPiece_missed rest) (by simp; omega)
  unfold scanKey keyText
  simp only [String.toList_ofList, List.cons_append, List.append_assoc, List.nil_append]
  rw [bind_found (char_cons '(' _)]
  refine (bind_found hmany).trans ?_
  rw [bind_found (char_cons ')' rest), List.flatten_singleton]
  rfl

/-! ### Segments -/

/-- The name may be written, and the key is the text of a key. -/
structure IsWritten (s : Segment) : Prop where
  name : Writable s.name
  key : ∀ key ∈ s.key, ∃ k : Key, key = String.ofList k.text

/-- The text writes the indices in brackets, perhaps with zeros in front of their digits. -/
inductive WritesIndices : List Char → List UInt64 → Prop where
  | nil : WritesIndices [] []
  | cons {ds u : List Char} {i : UInt64} {is : List UInt64} (ne_nil : ds ≠ [])
    (digits : ∀ c ∈ ds, c.isDigit = true) (number : Numeral.uint64? ds = some i)
    (more : WritesIndices u is) : WritesIndices ('[' :: ds ++ ']' :: u) (i :: is)

private theorem writesIndices_indexText (is : List UInt64) :
    WritesIndices (is.flatMap indexText) is := by
  induction is with
  | nil => exact .nil
  | cons i is ih =>
    have htext : (i :: is).flatMap indexText =
        '[' :: Nat.toDigits 10 i.toNat ++ ']' :: is.flatMap indexText := by
      simp [indexText]
    rw [htext]
    exact .cons Nat.toDigits_ne_nil (Numeral.isDigit_toDigits _) (Numeral.uint64?_toDigits i) ih

/-- There are no more indices than characters that write them. -/
theorem WritesIndices.length_le {u : List Char} {is : List UInt64} (h : WritesIndices u is) :
    is.length ≤ u.length := by
  induction h with
  | nil => exact Nat.le_refl _
  | cons _ _ _ _ ih =>
    simp only [List.length_cons, List.length_append]
    omega

/-- Indices are written with digits and brackets. -/
theorem WritesIndices.isIndexChar {u : List Char} {is : List UInt64} (h : WritesIndices u is) :
    ∀ c ∈ u, (c.isDigit || c == '[' || c == ']') = true := by
  induction h with
  | nil => exact fun c hc ↦ by cases hc
  | cons _ digits _ _ ih =>
    simp only [List.cons_append, List.forall_mem_cons, List.forall_mem_append]
    exact ⟨by decide, fun c hc ↦ by simp [digits c hc], by decide, ih⟩

/-- Behind a name stand a bracket or what follows the indices. -/
theorem WritesIndices.stops {u rest : List Char} {is : List UInt64} (h : WritesIndices u is)
    {p : Char → Bool} (hbracket : p '[' = false) (hrest : Stops p rest) : Stops p (u ++ rest) := by
  cases h with
  | nil => exact hrest
  | cons => exact (stops_cons _ _ _).mpr hbracket

/-- Indices are read one by one by any scanner that reads each from its brackets. -/
theorem WritesIndices.chain {α : Type} {p : Scanner ε α} {f : UInt64 → α}
    (hp : ∀ (ds rest : List Char) (i : UInt64), ds ≠ [] → (∀ c ∈ ds, c.isDigit = true) →
      Numeral.uint64? ds = some i → p ('[' :: ds ++ ']' :: rest) = .found (f i) rest)
    {u : List Char} {is : List UInt64} (h : WritesIndices u is) (rest : List Char) :
    Chain p (is.map f) (u ++ rest) rest := by
  induction h with
  | nil => exact .nil rest
  | @cons ds u i is ne_nil digits number _ ih =>
    refine .cons ?_ ih
    simpa using hp ds (u ++ rest) i ne_nil digits number

/-- What is read as indices one by one writes them, if each is read from brackets. -/
theorem WritesIndices.exists_of_chain {α : Type} {p : Scanner ε α} {f : UInt64 → α}
    (hp : ∀ {s a rest}, p s = .found a rest → ∃ ds i, s = '[' :: ds ++ ']' :: rest ∧ a = f i ∧
      ds ≠ [] ∧ (∀ c ∈ ds, c.isDigit = true) ∧ Numeral.uint64? ds = some i)
    {as : List α} {s rest : List Char} (h : Chain p as s rest) :
    ∃ u is, s = u ++ rest ∧ WritesIndices u is ∧ as = is.map f := by
  induction h with
  | nil s => exact ⟨[], [], rfl, .nil, rfl⟩
  | cons head _ ih =>
    obtain ⟨u, is, rfl, hu, rfl⟩ := ih
    obtain ⟨ds, i, rfl, rfl, hne, hall, hnumber⟩ := hp head
    exact ⟨_, i :: is, by simp, .cons hne hall hnumber hu, rfl⟩

private theorem scanIndex_text (ds rest : List Char) (i : UInt64) (hne : ds ≠ [])
    (hdigits : ∀ c ∈ ds, c.isDigit = true) (hnumber : Numeral.uint64? ds = some i) :
    (scanIndex : Scanner ε UInt64) ('[' :: ds ++ ']' :: rest) = .found i rest := by
  have hscan : (scanNumber : Scanner ε UInt64) (ds ++ ']' :: rest) = .found i (']' :: rest) := by
    unfold scanNumber
    rw [bind_found (digits_append hne hdigits ((stops_cons _ _ _).mpr (by decide))), hnumber,
      ofOption_some]
  unfold scanIndex
  simp only [List.cons_append]
  rw [bind_found (char_cons '[' _), bind_found hscan, bind_found (char_cons ']' rest)]
  rfl

/-- Indices are read one by one from what writes them. -/
theorem WritesIndices.chain_scanIndex {u : List Char} {is : List UInt64} (h : WritesIndices u is)
    (rest : List Char) : Chain (scanIndex : Scanner ε UInt64) is (u ++ rest) rest := by
  have hchain := h.chain (ε := ε) (f := id) scanIndex_text rest
  rwa [List.map_id] at hchain

/-- Indices are read from what writes them, in front of a text that does not go on with one. -/
theorem WritesIndices.many_scanIndex {u : List Char} {is : List UInt64} (h : WritesIndices u is)
    {rest : List Char} (hrest : Stops (· == '[') rest) :
    (many scanIndex : Scanner ε (List UInt64)) (u ++ rest) = .found is rest := by
  refine many_of_chain (h.chain_scanIndex rest) (bind_missed (char_missed hrest)) ?_
  have hlength := h.length_le
  rw [List.length_append]
  omega

/-- What is read as an index is a number in brackets. -/
theorem exists_digits_of_scanIndex {s rest : List Char} {i : UInt64}
    (h : (scanIndex : Scanner ε UInt64) s = .found i rest) :
    ∃ ds, s = '[' :: ds ++ ']' :: rest ∧ ds ≠ [] ∧ (∀ c ∈ ds, c.isDigit = true) ∧
      Numeral.uint64? ds = some i := by
  obtain ⟨_, _, hopen, h⟩ := bind_eq_found.mp h
  obtain ⟨_, _, hnumber, h⟩ := bind_eq_found.mp h
  obtain ⟨_, _, hclose, h⟩ := bind_eq_found.mp h
  cases h
  obtain ⟨ds, _, hdigits, hvalue⟩ := bind_eq_found.mp hnumber
  obtain ⟨hi, rfl⟩ := ofOption_eq_found.mp hvalue
  obtain ⟨rfl, hne, hall, -⟩ := run1_eq_found.mp hdigits
  refine ⟨ds, ?_, hne, hall, hi⟩
  rw [char_eq_found.mp hopen, char_eq_found.mp hclose]
  simp

/-- A segment is read from its name, its key and its indices, in front of another or at the end. -/
theorem scan_written {name : String} (hname : Writable name) {key : Option String}
    (hkey : ∀ word ∈ key, ∃ k : Key, word = String.ofList k.text) {u : List Char} {is : List UInt64}
    (hu : WritesIndices u is) {rest : List Char} (h : Stops (· != '/') rest) :
    (scan : Scanner ε Segment)
      ('/' :: name.toList ++ ((key.map keyText).getD [] ++ (u ++ rest))) =
        .found ⟨name, key, is⟩ rest := by
  obtain ⟨hne, hname⟩ := hname
  -- Behind the name stand a parenthesis, a bracket, a slash or nothing.
  have hbehind (p : Char → Bool) (hslash : p '/' = false) (hbracket : p '[' = false) :
      Stops p (u ++ rest) := hu.stops hbracket (h.of_ne hslash)
  have hindices : many scanIndex (u ++ rest) = (.found is rest : Scan ε (List UInt64)) :=
    hu.many_scanIndex (h.of_ne (by decide))
  have hoptional : optional scanKey ((key.map keyText).getD [] ++ (u ++ rest)) =
      (.found key (u ++ rest) : Scan ε (Option String)) := by
    cases key with
    | none => exact optional_missed (bind_missed (char_missed (hbehind _ (by decide) (by decide))))
    | some key =>
      obtain ⟨k, rfl⟩ := hkey key rfl
      exact optional_found (scanKey_text k _)
  have hstops : Stops isNameChar ((key.map keyText).getD [] ++ (u ++ rest)) := by
    cases key with
    | none => exact hbehind _ (by decide) (by decide)
    | some key => exact (stops_cons _ _ _).mpr (by decide)
  unfold scan
  rw [List.cons_append, bind_found (char_cons '/' _), bind_found (run1_append (by simpa using hne)
    (List.all_eq_true.mp hname) hstops), bind_found hoptional, bind_found hindices]
  simp only [String.ofList_toList]
  rfl

/-- The text behind a slash is read as the segment, in front of another or at the end. -/
def Reads (s : List Char) (segment : Segment) : Prop :=
  ∀ rest, Stops (· != '/') rest → (scan : Scanner Empty Segment) ('/' :: s ++ rest) =
    .found segment rest

/-- A segment is read back from its name, its key and its indices. -/
theorem reads_written {name : String} (hname : Writable name) {key : Option String}
    (hkey : ∀ word ∈ key, ∃ k : Key, word = String.ofList k.text) {u : List Char} {is : List UInt64}
    (hu : WritesIndices u is) :
    Reads (name.toList ++ (key.map keyText).getD [] ++ u) ⟨name, key, is⟩ := by
  intro rest hrest
  have hscan := scan_written (ε := Empty) hname hkey hu hrest
  simpa using hscan

/-- Segments are read from their texts in a row. -/
theorem ofPath?_of_reads {written : List (List Char × Segment)} (hne : written ≠ [])
    (h : ∀ x ∈ written, Reads x.1 x.2) :
    ofPath? (String.ofList (written.flatMap fun x ↦ '/' :: x.1)) =
      some (written.map (·.2)) := by
  have hstops (xs : List (List Char × Segment)) :
      Stops (· != '/') (xs.flatMap fun x ↦ '/' :: x.1) := by
    cases xs <;> simp
  obtain ⟨x, xs, rfl⟩ := List.exists_cons_of_ne_nil hne
  obtain ⟨hx, hxs⟩ := List.forall_mem_cons.mp h
  have hchain (ys : List (List Char × Segment)) (hys : ∀ y ∈ ys, Reads y.1 y.2) :
      Chain (scan : Scanner Empty Segment) (ys.map (·.2)) (ys.flatMap fun y ↦ '/' :: y.1) [] := by
    induction ys with
    | nil => exact .nil []
    | cons y ys ih =>
      obtain ⟨hy, hys⟩ := List.forall_mem_cons.mp hys
      exact .cons (hy _ (hstops ys)) (ih hys)
  have hlength : (xs.map (·.2)).length ≤ (xs.flatMap fun x ↦ '/' :: x.1).length := by
    rw [List.length_map]
    exact length_le_flatMap _ xs fun a _ ↦ by simp
  have hmany := many_of_chain (hchain xs hxs) (bind_missed (char_missed (stops_nil _))) hlength
  unfold ofPath?
  simp only [String.toList_ofList]
  apply whole?_of_found
  rw [List.flatMap_cons, bind_found (hx _ (hstops xs)), bind_found hmany]
  rfl

/-- A path that begins with a name and a key is read as such if the rest is. -/
theorem ofPath?_keyed {plural : String} (hplural : Writable plural) (k : Key)
    {written : List (List Char × Segment)} (h : ∀ x ∈ written, Reads x.1 x.2) :
    ofPath? (String.ofList ('/' :: plural.toList ++ keyText (String.ofList k.text) ++
        (written.map (·.1)).flatMap ('/' :: ·))) =
      some (⟨plural, some (String.ofList k.text), []⟩ :: written.map (·.2)) := by
  have hkey : ∀ word ∈ some (String.ofList k.text), ∃ k : Key, word = String.ofList k.text :=
    fun word hword ↦ ⟨k, (Option.some.inj hword).symm⟩
  have hread := reads_written hplural hkey .nil
  rw [List.append_nil] at hread
  have hall : ∀ x ∈ (plural.toList ++ keyText (String.ofList k.text),
      (⟨plural, some (String.ofList k.text), []⟩ : Segment)) :: written, Reads x.1 x.2 :=
    List.forall_mem_cons.mpr ⟨hread, h⟩
  have hpath := ofPath?_of_reads (List.cons_ne_nil _ _) hall
  simpa [List.flatMap_map] using hpath

/-- Segments are read from their texts in a row. -/
theorem ofPath?_texts {segments : List Segment} (hne : segments ≠ [])
    (h : ∀ s ∈ segments, s.IsWritten) :
    ofPath? (String.ofList (segments.flatMap text)) = some segments := by
  have hreads : ∀ x ∈ segments.map fun s ↦ (s.text.tail, s), Reads x.1 x.2 := by
    refine List.forall_mem_map.mpr fun s hs ↦ ?_
    have hread := reads_written (h s hs).name (h s hs).key (writesIndices_indexText s.indices)
    exact hread
  have hpath := ofPath?_of_reads (by simpa using hne) hreads
  rw [List.flatMap_map, List.map_map, Function.comp_def, List.map_id'] at hpath
  exact hpath

private theorem writable_of_scan {t rest : List Char} {s : Segment}
    (h : (scan : Scanner ε Segment) t = .found s rest) : Writable s.name := by
  obtain ⟨_, _, _, h⟩ := bind_eq_found.mp h
  obtain ⟨name, _, hname, h⟩ := bind_eq_found.mp h
  obtain ⟨_, _, _, h⟩ := bind_eq_found.mp h
  obtain ⟨_, _, _, h⟩ := bind_eq_found.mp h
  cases h
  obtain ⟨-, hne, hall, -⟩ := run1_eq_found.mp hname
  refine ⟨fun hnil ↦ hne ?_, ?_⟩
  · exact String.ofList_eq_empty_iff.mp hnil
  · rw [String.toList_ofList]
    exact List.all_eq_true.mpr hall

/-- What is read as a path has segments, and their names may be written. -/
theorem writable_of_ofPath? {path : String} {segments : List Segment}
    (h : ofPath? path = some segments) : segments ≠ [] ∧ ∀ s ∈ segments, Writable s.name := by
  obtain ⟨s, _, hs, hmany⟩ := bind_eq_found.mp (whole?_eq_some.mp h)
  obtain ⟨others, _, hothers, hmany⟩ := bind_eq_found.mp hmany
  cases hmany
  refine ⟨List.cons_ne_nil _ _, List.forall_mem_cons.mpr ⟨writable_of_scan hs, ?_⟩⟩
  exact (chain_of_many hothers).forall_mem fun _ _ _ ↦ writable_of_scan

end Segment

end SensorQuery
