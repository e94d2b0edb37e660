import SensorQuery.Proofs.Query.Spelling
import SensorQuery.Proofs.Text.Quoted
import SensorQuery.Proofs.Time.Interval

/-!
# Literals read back

Each form of literal is read back from its text in front of anything that may follow an operand.
The forms are tried in order, so for each it is shown that those before it miss: words, durations
and geometries by their first letter, times by the hyphens and colons that they cannot do without.
What a literal has when it was read is `Fit`; durations beyond the range of numbers are the only
literals that are read and not read back.
-/

namespace SensorQuery

open Scanner
open RawStep (isNameChar)

namespace Interval

/-- The durations among the sides. -/
def durations : Interval → List Duration
  | .between _ _ _ => []
  | .startingAt _ length => [length]
  | .endingAt length _ => [length]

private theorem Sides.imp {P Q : Duration → Prop} {i : Interval} (h : i.Sides P)
    (hPQ : ∀ d ∈ i.durations, P d → Q d) : i.Sides Q := by
  cases i with
  | between start stop hle => exact h
  | startingAt start length => exact ⟨h.1, hPQ length (by simp [durations]) h.2⟩
  | endingAt length stop => exact ⟨hPQ length (by simp [durations]) h.1, h.2⟩

end Interval

namespace Clock

/-- No time of day starts where no colon follows its front within what may stand in times. -/
theorem scan_missed {ε : Type} {s : List Char} (h : ':' ∉ (s.takeWhile isTimeChar).tail) :
    (scan : Scanner ε Clock) s = .missed := by
  apply within_scan.eq_missed
  intro c rest hc
  unfold scan at hc
  obtain ⟨hour, mid, hhour, hc⟩ := bind_eq_found.mp hc
  obtain ⟨_, mid', hcolon, -⟩ := bind_eq_found.mp hc
  obtain ⟨rfl, hlength, hdigit⟩ := exactlyOf_eq_found.mp hhour
  obtain rfl := char_eq_found.mp hcolon
  apply h
  have htime : ∀ c ∈ hour, isTimeChar c = true := fun c hc ↦ isTimeChar_of_isDigit c (hdigit c hc)
  rw [List.takeWhile_append_of_pos htime, List.takeWhile_cons_of_pos (by decide)]
  cases hour with
  | nil => simp at hlength
  | cons c hour => simp

private theorem not_mem_padded {mark : Char} (hmark : mark.isDigit = false) (width n : Nat) :
    mark ∉ Numeral.padded width n := by
  intro hmem
  have hdigit := Numeral.isDigit_padded width n mark hmem
  rw [hmark] at hdigit
  cases hdigit

private theorem not_mem_text (c : Clock) : '-' ∉ c.text := by
  have hpadded (width n : Nat) : '-' ∉ Numeral.padded width n := not_mem_padded (by decide) width n
  have hfraction : '-' ∉ fractionText c.nano := by
    unfold fractionText
    split
    · simp
    · split
      · simp [hpadded]
      · split <;> simp [hpadded]
  simp [text, hpadded, hfraction]

end Clock

namespace Literal

/-- The durations in the literal. -/
def durations : Literal → List Duration
  | .duration d => [d]
  | .interval i => i.durations
  | _ => []

/-- The literal is one that a text can hold, and its durations have the property. -/
def Fit (P : Duration → Prop) : Literal → Prop
  | .double x => x.isFinite = true
  | .dateTime t => t.date.IsShort
  | .date d => d.IsShort
  | .duration d => P d
  | .interval i => i.Sides P
  | .geometry wkt => isGeometry wkt.toList = true
  | _ => True

/-- A literal fits a weaker condition on its durations. -/
theorem Fit.imp {P Q : Duration → Prop} {c : Literal} (h : c.Fit P)
    (hPQ : ∀ d ∈ c.durations, P d → Q d) : c.Fit Q := by
  cases c with
  | duration d => exact hPQ d (by simp [durations]) h
  | interval i => exact Interval.Sides.imp h hPQ
  | _ => exact h

/-! ### Forms that miss -/

-- The first letters of the words that literals begin with.
private def isLead (c : Char) : Bool := ['n', 't', 'f', 'd', 'g'].contains c

private theorem exactly_missed_of_isLead {ε : Type} {w s : List Char}
    (hw : ∃ c ∈ w.head?, isLead c = true) (h : Stops isLead s) :
    (exactly w : Scanner ε Unit) s = .missed := by
  apply exactly_missed
  rintro ⟨t, rfl⟩
  obtain ⟨c, hc, hlead⟩ := hw
  cases w with
  | nil => cases hc
  | cons d w =>
    have hstop := h c hc
    rw [hlead] at hstop
    cases hstop

private theorem scanWord_missed {ε : Type} {s : List Char}
    (h : ∀ word ∈ ["null", "true", "false"], (scanKeyword word : Scanner ε Unit) s = .missed) :
    (scanWord : Scanner ε Literal) s = .missed := by
  apply firstOf_eq_missed
  intro p hp
  simp only [List.mem_cons, List.not_mem_nil, or_false] at hp
  rcases hp with rfl | rfl | rfl
  · exact bind_missed (h "null" (by simp))
  · exact bind_missed (h "true" (by simp))
  · exact bind_missed (h "false" (by simp))

private theorem scanKeyword_missed_of_isLead {ε : Type} {word : String} {s : List Char}
    (hw : ∃ c ∈ word.toList.head?, isLead c = true) (h : Stops isLead s) :
    (scanKeyword word : Scanner ε Unit) s = .missed :=
  bind_missed (exactly_missed_of_isLead hw h)

private theorem words_missed {s : List Char} (h : Stops isLead s) :
    (scanWord : Scanner ExpressionError Literal) s = .missed ∧ scanDuration s = .missed ∧
      scanGeometry s = .missed := by
  refine ⟨?_, ?_, ?_⟩
  · apply scanWord_missed
    intro word hword
    apply scanKeyword_missed_of_isLead ?_ h
    simp only [List.mem_cons, List.not_mem_nil, or_false] at hword
    rcases hword with rfl | rfl | rfl
    · exact ⟨'n', by decide, by decide⟩
    · exact ⟨'t', by decide, by decide⟩
    · exact ⟨'f', by decide, by decide⟩
  · exact bind_missed (exactly_missed_of_isLead ⟨'d', by decide, by decide⟩ h)
  · apply bind_missed
    rw [orElse_missed (exactly_missed_of_isLead ⟨'g', by decide, by decide⟩ h)]
    exact exactly_missed_of_isLead ⟨'g', by decide, by decide⟩ h

private theorem scan_of_stops {s : List Char} (h : Stops isLead s) :
    scan s = firstOf [scanTemporal, scanNumber, do
      let s ← scanString
      pure (.string (String.ofList s))] s := by
  obtain ⟨hword, hduration, hgeometry⟩ := words_missed h
  unfold scan
  rw [firstOf_missed hword, firstOf_missed hduration, firstOf_missed hgeometry]

/-- No time starts where neither a hyphen nor a colon follows. -/
theorem scanTemporal_missed {s : List Char} (hhyphen : '-' ∉ (s.takeWhile isTimeChar).tail)
    (hclock : (Clock.scan : Scanner ExpressionError Clock) s = .missed) :
    scanTemporal s = .missed := by
  apply firstOf_eq_missed
  intro p hp
  simp only [List.mem_cons, List.not_mem_nil, or_false] at hp
  rcases hp with rfl | rfl | rfl | rfl
  · exact mapCause_eq_missed.mpr (bind_missed (Interval.scan_missed hhyphen))
  · exact bind_missed (Instant.scan_missed hhyphen)
  · exact bind_missed (Date.scan_missed hhyphen)
  · exact bind_missed hclock

private theorem scanString_missed {ε : Type} {s : List Char} (h : Stops (· == '\'') s) :
    (scanString : Scanner ε (List Char)) s = .missed := bind_missed (char_missed h)

/-! ### Texts in quotes -/

private def quotedChar {ε : Type} : Scanner ε Char :=
  orElse
    (do
      exactly ['\'', '\'']
      pure '\'')
    (satisfy (· != '\''))

private theorem quotedChar_append {ε : Type} (c : Char) (mid : List Char) :
    (quotedChar : Scanner ε Char) ((if c = '\'' then ['\'', '\''] else [c]) ++ mid) =
      .found c mid := by
  unfold quotedChar
  by_cases hc : c = '\''
  · subst hc
    rw [if_pos rfl]
    apply orElse_found
    rw [bind_found (exactly_append _ mid)]
    rfl
  · rw [if_neg hc, List.singleton_append, orElse_missed]
    · exact satisfy_cons _ c mid (by simpa using hc)
    · apply bind_missed
      exact exactly_missed_of_stops ((stops_cons _ _ _).mpr (beq_eq_false_iff_ne.mpr hc))

private theorem quotedChar_missed {ε : Type} {rest : List Char} (h : Stops (· == '\'') rest) :
    (quotedChar : Scanner ε Char) ('\'' :: rest) = .missed := by
  unfold quotedChar
  rw [orElse_missed]
  · exact satisfy_missed ((stops_cons _ _ _).mpr (by decide))
  · apply bind_missed
    apply exactly_missed
    rintro ⟨t, ht⟩
    cases ht
    simp at h

/-- A text in quotes is read back, as long as no quote follows. -/
theorem scanString_quote {ε : Type} (s : List Char) {rest : List Char}
    (h : Stops (· == '\'') rest) :
    (scanString : Scanner ε (List Char)) (Text.quote s ++ rest) = .found s rest := by
  have hmany : (many quotedChar : Scanner ε (List Char)) (Text.doubled s ++ '\'' :: rest) =
      .found s ('\'' :: rest) := by
    rw [Text.doubled_eq_flatMap]
    apply many_of_chain (chain_of_render fun c _ mid ↦ quotedChar_append c mid)
      (quotedChar_missed h)
    have hlength := length_le_flatMap (fun c ↦ if c = '\'' then ['\'', '\''] else [c]) s
      (by intro c _; split <;> simp)
    rw [List.length_append]
    omega
  unfold scanString Text.quote
  simp only [List.cons_append, List.append_assoc, List.nil_append]
  rw [bind_found (char_cons '\'' _)]
  refine (bind_found hmany).trans ?_
  rw [bind_found (char_cons '\'' rest)]
  rfl

private theorem quotedChar_eq_found {ε : Type} {s rest : List Char} {c : Char}
    (h : (quotedChar : Scanner ε Char) s = .found c rest) :
    s = (if c = '\'' then ['\'', '\''] else [c]) ++ rest := by
  rcases orElse_eq_found.mp h with h | ⟨-, h⟩
  · obtain ⟨_, mid, hquotes, hpure⟩ := bind_eq_found.mp h
    cases hpure
    exact exactly_eq_found.mp hquotes
  · obtain ⟨rfl, hc⟩ := satisfy_eq_found.mp h
    rw [if_neg (by simpa using hc)]
    rfl

private theorem moves_quotedChar {ε : Type} : Moves (quotedChar : Scanner ε Char) := by
  intro s c rest h
  rw [quotedChar_eq_found h, List.length_append]
  exact Nat.lt_add_of_pos_left (by split <;> simp)

/-- A text is read from quotes around it, which no quote follows, and from nothing else. -/
theorem scanString_eq_found_iff {ε : Type} {raw s rest : List Char} :
    (scanString : Scanner ε (List Char)) raw = .found s rest ↔
      raw = Text.quote s ++ rest ∧ Stops (· == '\'') rest := by
  refine ⟨fun h ↦ ?_, fun ⟨hraw, hrest⟩ ↦ hraw ▸ scanString_quote s hrest⟩
  obtain ⟨_, mid, hopen, h⟩ := bind_eq_found.mp h
  obtain ⟨body, back, hbody, h⟩ := bind_eq_found.mp h
  obtain ⟨_, last, hclose, h⟩ := bind_eq_found.mp h
  cases h
  cases char_eq_found.mp hclose
  obtain ⟨hchain, hstop⟩ := (many_eq_found_iff moves_quotedChar rfl).mp hbody
  constructor
  · rw [char_eq_found.mp hopen, hchain.eq_flatMap fun _ _ _ ↦ quotedChar_eq_found,
      ← Text.doubled_eq_flatMap]
    simp [Text.quote]
  · rcases stops_or_exists '\'' rest with hrest | ⟨t, rfl⟩
    · exact hrest
    · cases (quotedChar_append '\'' t).symm.trans hstop

/-! ### Reading back -/

private theorem Ends.stops_isTimeChar {rest : List Char} (h : Ends rest) : Stops isTimeChar rest :=
  h.stops (by decide)

private theorem Ends.stops_isNameChar {rest : List Char} (h : Ends rest) : Stops isNameChar rest :=
  h.stops (by decide)

private theorem scanWord_append {ε : Type} {rest : List Char} (hstops : Stops isNameChar rest) :
    (scanWord : Scanner ε Literal) ("null".toList ++ rest) = .found .null rest ∧
      (scanWord : Scanner ε Literal) ("true".toList ++ rest) = .found (.boolean true) rest ∧
      (scanWord : Scanner ε Literal) ("false".toList ++ rest) = .found (.boolean false) rest := by
  have hmiss (word name : String) (hword : word.toList.all isNameChar = true)
      (hname : name.toList.all isNameChar = true) (hne : word.toList ≠ name.toList) :
      (scanKeyword word : Scanner ε Unit) (name.toList ++ rest) = .missed :=
    scanKeyword_missed (List.all_eq_true.mp hword) (List.all_eq_true.mp hname) hstops hne
  refine ⟨?_, ?_, ?_⟩
  · exact firstOf_found (bind_found (scanKeyword_append "null" hstops))
  · unfold scanWord
    rw [firstOf_missed (bind_missed (hmiss "null" "true" (by decide) (by decide) (by decide)))]
    exact firstOf_found (bind_found (scanKeyword_append "true" hstops))
  · unfold scanWord
    rw [firstOf_missed (bind_missed (hmiss "null" "false" (by decide) (by decide) (by decide))),
      firstOf_missed (bind_missed (hmiss "true" "false" (by decide) (by decide) (by decide)))]
    exact firstOf_found (bind_found (scanKeyword_append "false" hstops))

/-- A name that is one of the three words is read as a literal. -/
theorem exists_of_word {word : String} (hword : word ∈ ["null", "true", "false"])
    {rest : List Char} (h : Stops isNameChar rest) :
    ∃ c, scan (word.toList ++ rest) = .found c rest := by
  obtain ⟨hnull, htrue, hfalse⟩ := scanWord_append (ε := ExpressionError) h
  simp only [List.mem_cons, List.not_mem_nil, or_false] at hword
  rcases hword with rfl | rfl | rfl
  · exact ⟨_, firstOf_found hnull⟩
  · exact ⟨_, firstOf_found htrue⟩
  · exact ⟨_, firstOf_found hfalse⟩

private theorem not_isLead_of_isDigit (c : Char) (h : c.isDigit = true) : isLead c = false := by
  cases hlead : isLead c with
  | false => rfl
  | true =>
    simp only [isLead, List.contains_iff_mem, List.mem_cons, List.not_mem_nil, or_false] at hlead
    rcases hlead with rfl | rfl | rfl | rfl | rfl <;> simp at h

private theorem scan_spelling {n : Spelling} (hn : n.WellFormed) {c : Literal} {rest : List Char}
    (h : Ends rest) (hc : (match n.integer? with
      | some i => pure (.integer i)
      | none =>
        if n.double.isFinite then pure (.double n.double)
        else refuse (.literal (.number (String.ofList n.text))) :
          Scanner ExpressionError Literal) rest = .found c rest) :
    scan (n.text ++ rest) = .found c rest := by
  have htime := Ends.stops_isTimeChar h
  have hstops : Stops isLead (n.text ++ rest) :=
    Spelling.stops_text hn (by decide) not_isLead_of_isDigit rest
  have htemporal : scanTemporal (n.text ++ rest) = .missed :=
    scanTemporal_missed (Spelling.not_mem_takeWhile hn htime (by decide) (by decide))
      (Clock.scan_missed (Spelling.not_mem_takeWhile hn htime (by decide) (by decide)))
  rw [scan_of_stops hstops, firstOf_missed htemporal]
  apply firstOf_found
  unfold scanNumber
  rw [bind_found (Spelling.scan_text hn (Ends.stops_isNameChar h))]
  exact hc

private theorem scan_integer (i : Int64) {rest : List Char} (h : Ends rest) :
    scan ((Literal.integer i).text ++ rest) = .found (.integer i) rest := by
  obtain ⟨n, hn, htext, hinteger⟩ := Spelling.exists_of_integer i
  rw [show (Literal.integer i).text = n.text from htext.symm]
  apply scan_spelling hn h
  rw [hinteger]
  rfl

private theorem scan_double {x : Binary64} (hx : x.isFinite = true) {rest : List Char}
    (h : Ends rest) : scan ((Literal.double x).text ++ rest) = .found (.double x) rest := by
  obtain ⟨n, hn, htext, hinteger, hdouble⟩ := Spelling.exists_of_double hx
  rw [show (Literal.double x).text = n.text from htext.symm]
  apply scan_spelling hn h
  rw [hinteger]
  simp only [hdouble, hx, ite_true]
  rfl

private theorem scan_temporal {s rest : List Char} {c : Literal} (h : Stops isLead s)
    (hc : scanTemporal s = .found c rest) : scan s = .found c rest := by
  rw [scan_of_stops h]
  exact firstOf_found hc

private theorem scan_interval {i : Interval} (hi : i.Sides Duration.IsPlain) {rest : List Char}
    (h : Ends rest) : scan ((Literal.interval i).text ++ rest) = .found (.interval i) rest := by
  apply scan_temporal (i.stops_text hi not_isLead_of_isDigit (by decide) (by decide) rest)
  apply firstOf_found
  apply mapCause_eq_found.mpr
  exact bind_found (i.scan_text hi (h.stops (by decide))
    (h.stops (by decide)))

private theorem scan_dateTime {t : Instant} (ht : t.date.IsShort) {rest : List Char}
    (h : Ends rest) : scan ((Literal.dateTime t).text ++ rest) = .found (.dateTime t) rest := by
  have hinterval : scanInterval (t.text ++ rest) = .missed := mapCause_eq_missed.mpr
    (bind_missed (Interval.scan_instant_missed t ht (h.stops (by decide))))
  apply scan_temporal (t.stops_text ht not_isLead_of_isDigit rest)
  refine (firstOf_missed hinterval).trans ?_
  exact firstOf_found (bind_found (Instant.scan_text t ht rest))

private theorem scan_date {d : Date} (hd : d.IsShort) {rest : List Char}
    (h : Ends rest) : scan ((Literal.date d).text ++ rest) = .found (.date d) rest := by
  have hclock : Stops (· == 'T') rest := h.stops (by decide)
  have hinterval : scanInterval (d.text ++ rest) = .missed :=
    mapCause_eq_missed.mpr (bind_missed (Interval.scan_date_missed d hd hclock))
  have hinstant : (Instant.scan : Scanner ExpressionError Instant) (d.text ++ rest) = .missed := by
    unfold Instant.scan
    rw [bind_found (Date.scan_text d hd rest)]
    exact bind_missed (char_missed hclock)
  apply scan_temporal (d.stops_text hd not_isLead_of_isDigit rest)
  refine (firstOf_missed hinterval).trans ?_
  refine (firstOf_missed (bind_missed hinstant)).trans ?_
  apply firstOf_found
  rw [bind_found (Date.scan_text d hd rest), bind_found (notBefore_of_stops hclock)]
  rfl

private theorem scan_time (c : Clock) {rest : List Char} (h : Ends rest) :
    scan ((Literal.time c).text ++ rest) = .found (.time c) rest := by
  have hhyphen : '-' ∉ ((c.text ++ rest).takeWhile isTimeChar).tail := fun hmem ↦
    c.not_mem_text (mem_of_mem_takeWhile (Ends.stops_isTimeChar h) (List.mem_of_mem_tail hmem))
  apply scan_temporal (c.stops_text not_isLead_of_isDigit rest)
  refine (firstOf_missed
    (mapCause_eq_missed.mpr (bind_missed (Interval.scan_missed hhyphen)))).trans ?_
  refine (firstOf_missed (bind_missed (Instant.scan_missed hhyphen))).trans ?_
  refine (firstOf_missed (bind_missed (Date.scan_missed hhyphen))).trans ?_
  exact firstOf_found (bind_found
    (Clock.scan_text c (h.stops (by decide))
      (h.stops (by decide))))

private theorem scan_string (s : String) {rest : List Char} (h : Ends rest) :
    scan ((Literal.string s).text ++ rest) = .found (.string s) rest := by
  have hquote (p : Char → Bool) (hp : p '\'' = false) :
      Stops p (Text.quote s.toList ++ rest) := by
    rw [Text.quote, List.cons_append, stops_cons]
    exact hp
  have htemporal : scanTemporal (Text.quote s.toList ++ rest) = .missed := by
    have hnil : (Text.quote s.toList ++ rest).takeWhile isTimeChar = [] :=
      (hquote _ (by decide)).takeWhile_eq_nil
    apply scanTemporal_missed
    · rw [hnil]
      simp
    · apply Clock.scan_missed
      rw [hnil]
      simp
  have hnumber : scanNumber (Text.quote s.toList ++ rest) = .missed := by
    apply bind_missed
    apply Spelling.scan_missed (hquote _ (by decide))
    intro t ht
    cases ht
  refine (scan_of_stops (hquote _ (by decide))).trans ?_
  rw [firstOf_missed htemporal, firstOf_missed hnumber]
  apply firstOf_found
  rw [bind_found (scanString_quote s.toList (h.stops (by decide)))]
  rw [String.ofList_toList]
  rfl

private theorem scanWord_missed_of_not_mem {ε : Type} {c : Char} {s : List Char}
    (hc : c ∉ ['n', 't', 'f']) : (scanWord : Scanner ε Literal) (c :: s) = .missed := by
  apply scanWord_missed
  intro word hword
  apply bind_missed
  apply exactly_missed
  simp only [List.mem_cons, List.not_mem_nil, or_false, not_or] at hc hword
  obtain ⟨hn, ht, hf⟩ := hc
  rintro ⟨t, hs⟩
  rcases hword with rfl | rfl | rfl
  · exact hn (List.cons.inj hs).1.symm
  · exact ht (List.cons.inj hs).1.symm
  · exact hf (List.cons.inj hs).1.symm

private theorem scan_duration {d : Duration} (hd : d.IsPlain) (rest : List Char) :
    scan ((Literal.duration d).text ++ rest) = .found (.duration d) rest := by
  have htext : (Literal.duration d).text ++ rest =
      "duration'".toList ++ (d.text ++ '\'' :: rest) := by
    rw [show (Literal.duration d).text = "duration'".toList ++ d.text ++ ['\''] from rfl]
    simp only [List.append_assoc, List.singleton_append]
  have hword : (scanWord : Scanner ExpressionError Literal)
      ("duration'".toList ++ (d.text ++ '\'' :: rest)) = .missed :=
    scanWord_missed_of_not_mem (by decide)
  rw [htext]
  unfold scan
  rw [firstOf_missed hword]
  apply firstOf_found
  unfold scanDuration
  rw [bind_found (exactly_append _ _)]
  apply orElse_found
  rw [bind_found (Duration.scan_text d hd ((stops_cons _ _ _).mpr (by decide))
    ((stops_cons _ _ _).mpr (by decide))), bind_found (char_cons '\'' rest)]
  rfl

private theorem scan_geometry {wkt : String} (hwkt : isGeometry wkt.toList = true)
    {rest : List Char} (h : Ends rest) :
    scan ((Literal.geometry wkt).text ++ rest) = .found (.geometry wkt) rest := by
  have htext : (Literal.geometry wkt).text ++ rest =
      "geography".toList ++ (Text.quote wkt.toList ++ rest) := by
    rw [show (Literal.geometry wkt).text = "geography".toList ++ Text.quote wkt.toList from rfl]
    exact List.append_assoc _ _ _
  have hword : (scanWord : Scanner ExpressionError Literal)
      ("geography".toList ++ (Text.quote wkt.toList ++ rest)) = .missed :=
    scanWord_missed_of_not_mem (by decide)
  have hduration : scanDuration ("geography".toList ++ (Text.quote wkt.toList ++ rest)) =
      .missed := by
    apply bind_missed
    apply exactly_missed
    rintro ⟨t, ht⟩
    exact absurd (List.cons.inj ht).1 (by decide)
  rw [htext]
  unfold scan
  rw [firstOf_missed hword, firstOf_missed hduration]
  apply firstOf_found
  unfold scanGeometry
  rw [bind_found (orElse_found (exactly_append _ _)),
    bind_found (scanString_quote wkt.toList (h.stops (by decide)))]
  rw [hwkt, if_pos rfl, String.ofList_toList]
  rfl

/-- A literal that a text can hold, with durations that are finite, is read back from its text in
front of whatever follows an operand. -/
theorem scan_text (c : Literal) (hc : c.Fit Duration.IsPlain) {rest : List Char} (h : Ends rest) :
    scan (c.text ++ rest) = .found c rest := by
  obtain ⟨hnull, htrue, hfalse⟩ :=
    scanWord_append (ε := ExpressionError) (Ends.stops_isNameChar h)
  cases c with
  | null => exact firstOf_found hnull
  | boolean b =>
    cases b with
    | true => exact firstOf_found htrue
    | false => exact firstOf_found hfalse
  | integer i => exact scan_integer i h
  | double x => exact scan_double hc h
  | string s => exact scan_string s h
  | dateTime t => exact scan_dateTime hc h
  | date d => exact scan_date hc h
  | time t => exact scan_time t h
  | duration d => exact scan_duration hc rest
  | interval i => exact scan_interval hc h
  | geometry wkt => exact scan_geometry hc h

/-- A character at the front of a literal other than `null`. -/
def isOpening (c : Char) : Bool :=
  c.isDigit || ['-', 'P', '\'', 't', 'f', 'd', 'g'].contains c

/-- A literal begins with a digit, a sign, a quote or the first letter of its form. -/
theorem stops_text {P : Duration → Prop} {p : Char → Bool} (c : Literal) (hc : c.Fit P)
    (hp : ∀ x, isOpening x = true → p x = false) (hnull : c = .null → p 'n' = false)
    (rest : List Char) : Stops p (c.text ++ rest) := by
  have hdigit (x : Char) (hx : x.isDigit = true) : p x = false :=
    hp x (by rw [isOpening, hx, Bool.true_or])
  have hminus := hp '-' (by decide)
  cases c with
  | null => exact (stops_cons _ _ _).mpr (hnull rfl)
  | boolean b => cases b <;> exact (stops_cons _ _ _).mpr (hp _ (by decide))
  | integer i =>
    obtain ⟨n, hn, htext, -⟩ := Spelling.exists_of_integer i
    rw [show (Literal.integer i).text = n.text from htext.symm]
    exact Spelling.stops_text hn hminus hdigit rest
  | double x =>
    obtain ⟨n, hn, htext, -⟩ := Spelling.exists_of_double hc
    rw [show (Literal.double x).text = n.text from htext.symm]
    exact Spelling.stops_text hn hminus hdigit rest
  | string s => exact (stops_cons _ _ _).mpr (hp _ (by decide))
  | dateTime t => exact t.stops_text hc hdigit rest
  | date d => exact d.stops_text hc hdigit rest
  | time t => exact t.stops_text hdigit rest
  | duration d => exact (stops_cons _ _ _).mpr (hp _ (by decide))
  | interval i => exact i.stops_text hc hdigit (hp _ (by decide)) hminus rest
  | geometry wkt => exact (stops_cons _ _ _).mpr (hp _ (by decide))

/-! ### What is read -/

private theorem fit_of_scanDuration {s rest : List Char} {c : Literal}
    (h : scanDuration s = .found c rest) : c.Fit Duration.IsUnsigned := by
  obtain ⟨_, mid, _, h⟩ := bind_eq_found.mp h
  rcases orElse_eq_found.mp h with h | ⟨-, h⟩
  · obtain ⟨d, _, hd, h⟩ := bind_eq_found.mp h
    obtain ⟨_, _, _, h⟩ := bind_eq_found.mp h
    cases h
    exact Duration.isUnsigned_of_scan hd
  · cases h

private theorem fit_of_scanGeometry {s rest : List Char} {c : Literal}
    (h : scanGeometry s = .found c rest) : c.Fit Duration.IsUnsigned := by
  obtain ⟨_, _, _, h⟩ := bind_eq_found.mp h
  obtain ⟨wkt, _, _, h⟩ := bind_eq_found.mp h
  split at h
  · next hwkt =>
    cases h
    simpa [Fit] using hwkt
  · cases h

private theorem fit_of_scanTemporal {s rest : List Char} {c : Literal}
    (h : scanTemporal s = .found c rest) : c.Fit Duration.IsUnsigned := by
  obtain ⟨p, hp, h⟩ := exists_of_firstOf_eq_found h
  simp only [List.mem_cons, List.not_mem_nil, or_false] at hp
  rcases hp with rfl | rfl | rfl | rfl
  · obtain ⟨i, _, hi, h⟩ := bind_eq_found.mp (mapCause_eq_found.mp h)
    cases h
    exact Interval.sides_of_scan hi
  · obtain ⟨t, _, ht, h⟩ := bind_eq_found.mp h
    cases h
    exact Instant.isShort_of_scan ht
  · obtain ⟨d, _, hd, h⟩ := bind_eq_found.mp h
    obtain ⟨_, _, _, h⟩ := bind_eq_found.mp h
    cases h
    exact (Date.exists_of_scan hd).1
  · obtain ⟨t, _, _, h⟩ := bind_eq_found.mp h
    cases h
    trivial

private theorem fit_of_scanNumber {s rest : List Char} {c : Literal}
    (h : scanNumber s = .found c rest) : c.Fit Duration.IsUnsigned := by
  obtain ⟨n, _, _, h⟩ := bind_eq_found.mp h
  cases hinteger : n.integer? with
  | some i =>
    simp only [hinteger] at h
    cases h
    trivial
  | none =>
    simp only [hinteger] at h
    split at h
    · next hfinite =>
      cases h
      exact hfinite
    · cases h

/-- A literal that is read is one that a text can hold, and its seconds are not negative. -/
theorem fit_of_scan {s rest : List Char} {c : Literal} (h : scan s = .found c rest) :
    c.Fit Duration.IsUnsigned := by
  obtain ⟨p, hp, h⟩ := exists_of_firstOf_eq_found h
  simp only [List.mem_cons, List.not_mem_nil, or_false] at hp
  rcases hp with rfl | rfl | rfl | rfl | rfl | rfl
  · obtain ⟨p, hp, h⟩ := exists_of_firstOf_eq_found h
    simp only [List.mem_cons, List.not_mem_nil, or_false] at hp
    rcases hp with rfl | rfl | rfl <;> obtain ⟨_, _, _, h⟩ := bind_eq_found.mp h <;> cases h <;>
      trivial
  · exact fit_of_scanDuration h
  · exact fit_of_scanGeometry h
  · exact fit_of_scanTemporal h
  · exact fit_of_scanNumber h
  · obtain ⟨_, _, _, h⟩ := bind_eq_found.mp h
    cases h
    trivial

/-! ### Texts that are no literals -/

private theorem scan_missed {s : List Char}
    (hword : (scanWord : Scanner ExpressionError Literal) s = .missed)
    (hduration : scanDuration s = .missed) (hgeometry : scanGeometry s = .missed)
    (hhyphen : '-' ∉ (s.takeWhile isTimeChar).tail) (hdigit : Stops Char.isDigit s)
    (hminus : ∀ t, s = '-' :: t → Stops Char.isDigit t) (hquote : Stops (· == '\'') s) :
    scan s = .missed := by
  have htemporal : scanTemporal s = .missed :=
    scanTemporal_missed hhyphen (bind_missed (exactlyOf_missed (by decide) hdigit))
  have hnumber : scanNumber s = .missed := bind_missed (Spelling.scan_missed hdigit hminus)
  unfold scan
  rw [firstOf_missed hword, firstOf_missed hduration, firstOf_missed hgeometry,
    firstOf_missed htemporal, firstOf_missed hnumber,
    firstOf_missed (bind_missed (scanString_missed hquote))]
  rfl

/-- A text is no literal if its first character begins neither a word nor a time, a number or a
string. -/
theorem scan_missed_of_stops {s : List Char} (h : Stops isNameChar s) (htime : Stops isTimeChar s)
    (hquote : Stops (· == '\'') s) : scan s = .missed := by
  have hlead : Stops isLead s := by
    apply h.mono
    intro c hc
    simp only [isLead, List.contains_iff_mem, List.mem_cons, List.not_mem_nil, or_false] at hc
    rcases hc with rfl | rfl | rfl | rfl | rfl <;> decide
  obtain ⟨hword, hduration, hgeometry⟩ := words_missed hlead
  refine scan_missed hword hduration hgeometry ?_ (htime.mono isTimeChar_of_isDigit) ?_ hquote
  · rw [htime.takeWhile_eq_nil]
    simp
  · rintro t rfl
    exact absurd htime (by simp; decide)

/-- A minus sign in front of neither digits nor a time makes no literal. -/
theorem scan_minus_missed {s : List Char} (hdigit : Stops Char.isDigit s)
    (hhyphen : '-' ∉ s.takeWhile isTimeChar) : scan ('-' :: s) = .missed := by
  have htake : ('-' :: s).takeWhile isTimeChar = '-' :: s.takeWhile isTimeChar :=
    List.takeWhile_cons_of_pos (by decide)
  obtain ⟨hword, hduration, hgeometry⟩ :=
    words_missed (s := '-' :: s) ((stops_cons _ _ _).mpr (by decide))
  refine scan_missed hword hduration hgeometry ?_ ((stops_cons _ _ _).mpr (by decide)) ?_
    ((stops_cons _ _ _).mpr (by decide))
  · rw [htake]
    exact hhyphen
  · intro t ht
    cases ht
    exact hdigit

private theorem not_quote {word name rest t : List Char}
    (hword : ∀ c ∈ word, isNameChar c = true) (hname : ∀ c ∈ name, isNameChar c = true)
    (hrest : Stops isNameChar rest) (hquote : Stops (· == '\'') rest)
    (h : name ++ rest = word ++ '\'' :: t) : False := by
  have hstops : Stops isNameChar ('\'' :: t) := (stops_cons _ _ _).mpr (by decide)
  obtain rfl := run_unique hname hword hrest hstops h
  rw [List.append_cancel_left h] at hquote
  simp at hquote

section

variable {name rest : List Char} (hname : ∀ c ∈ name, isNameChar c = true)
  (hrest : Stops isNameChar rest) (hquote : Stops (· == '\'') rest)

include hname hrest hquote

private theorem scanString_behind_missed {word mid : List Char}
    (hword : ∀ c ∈ word, isNameChar c = true) (hmid : name ++ rest = word ++ mid) :
    (scanString : Scanner ExpressionError (List Char)) mid = .missed := by
  apply scanString_missed
  intro c hc
  rw [beq_eq_false_iff_ne]
  rintro rfl
  obtain ⟨t, rfl⟩ := List.head?_eq_some_iff.mp hc
  exact not_quote hword hname hrest hquote hmid

private theorem scanDuration_name_missed : scanDuration (name ++ rest) = .missed := by
  apply bind_missed
  apply exactly_missed
  rintro ⟨t, ht⟩
  have hsplit : "duration'".toList ++ t = "duration".toList ++ '\'' :: t := rfl
  exact not_quote (List.all_eq_true.mp (by decide)) hname hrest hquote (ht.symm.trans hsplit)

private theorem scanGeometry_name_missed : scanGeometry (name ++ rest) = .missed := by
  have hwords : Within isNameChar (orElse (exactly "geography".toList) (exactly "geometry".toList) :
      Scanner ExpressionError Unit) :=
    .orElse (.exactly (List.all_eq_true.mp (by decide)))
      (.exactly (List.all_eq_true.mp (by decide)))
  refine bind_missed_of_found (hwords.accepts _) fun _ mid hmid ↦ bind_missed ?_
  obtain ⟨word, hmid, hword⟩ := hwords.reads hmid
  exact scanString_behind_missed hname hrest hquote hword hmid

end

/-- A name that is none of the three words, does not begin with a digit and is followed by no quote
is no literal. -/
theorem scan_name_missed {name rest : List Char} (hname : ∀ c ∈ name, isNameChar c = true)
    (hne : name ≠ []) (hdigit : Stops Char.isDigit name)
    (hword : ∀ word ∈ ["null", "true", "false"], word.toList ≠ name)
    (hrest : Stops isNameChar rest) (hquote : Stops (· == '\'') rest)
    (hhyphen : '-' ∉ (name ++ rest).takeWhile isTimeChar) : scan (name ++ rest) = .missed := by
  have hwordMissed : (scanWord : Scanner ExpressionError Literal) (name ++ rest) = .missed := by
    apply scanWord_missed
    intro word hmem
    refine scanKeyword_missed ?_ hname hrest (hword word hmem)
    simp only [List.mem_cons, List.not_mem_nil, or_false] at hmem
    rcases hmem with rfl | rfl | rfl <;> exact List.all_eq_true.mp (by decide)
  have hdurationMissed := scanDuration_name_missed hname hrest hquote
  have hgeometryMissed := scanGeometry_name_missed hname hrest hquote
  cases name with
  | nil => exact absurd rfl hne
  | cons c name =>
    rw [stops_cons] at hdigit
    have hc : isNameChar c = true := hname c List.mem_cons_self
    refine scan_missed hwordMissed hdurationMissed hgeometryMissed
      (fun hmem ↦ hhyphen (List.mem_of_mem_tail hmem)) ((stops_cons _ _ _).mpr hdigit) ?_ ?_
    · intro t ht
      cases ht
      exact absurd hc (by decide)
    · rw [List.cons_append, stops_cons, beq_eq_false_iff_ne]
      rintro rfl
      exact absurd hc (by decide)

end Literal

end SensorQuery
