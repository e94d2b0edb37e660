import SensorQuery.Literal
import SensorQuery.Proofs.Number.Range
import SensorQuery.Proofs.Time.Interval

/-!
# Durations that come back

A duration that is read comes back from its text exactly if its seconds are a finite number. They
are the number that the digits at the end of the text denote, so this can be seen from the text: it
is so unless these digits denote a number beyond the range.
-/

-- A power of a number is computed as such, whatever algebraic structures are in scope.
attribute [local instance (2000)] instPowNat

namespace SensorQuery

open Scanner

namespace Duration

/-! ### The seconds at the end of a text -/

/-- The text ends in seconds with these digits before and behind the point: what stands in front of
them, if anything does, is no part of a number. -/
structure EndsInSeconds (s whole fraction : List Char) : Prop where
  digits_whole : ∀ c ∈ whole, c.isDigit = true
  digits_fraction : ∀ c ∈ fraction, c.isDigit = true
  behind : ∃ front mark, mark.isDigit = false ∧ mark ≠ '.' ∧
    s = front ++ mark :: (whole ++ Decimal.fractionText fraction ++ ['S'])

-- A character of a number with a point.
private def isNumeric (c : Char) : Bool := c.isDigit || c == '.'

private theorem isNumeric_numeral {whole fraction : List Char}
    (hwhole : ∀ c ∈ whole, c.isDigit = true) (hfraction : ∀ c ∈ fraction, c.isDigit = true) :
    ∀ c ∈ whole ++ Decimal.fractionText fraction, isNumeric c = true := by
  intro c hc
  unfold Decimal.fractionText at hc
  unfold isNumeric
  rcases List.mem_append.mp hc with hc | hc
  · rw [hwhole c hc, Bool.true_or]
  · split at hc
    · cases hc
    · rcases List.mem_cons.mp hc with rfl | hc
      · decide
      · rw [hfraction c hc, Bool.true_or]

private theorem fractionText_injective {v w : List Char}
    (h : Decimal.fractionText v = Decimal.fractionText w) : v = w := by
  unfold Decimal.fractionText at h
  split at h <;> split at h <;> simp_all

private theorem stops_fractionText (fraction : List Char) :
    Stops Char.isDigit (Decimal.fractionText fraction) := by
  unfold Decimal.fractionText
  split <;> simp

/-- A text ends in one number of seconds. -/
theorem EndsInSeconds.unique {s whole whole' fraction fraction' : List Char}
    (h : EndsInSeconds s whole fraction) (h' : EndsInSeconds s whole' fraction') :
    whole = whole' ∧ fraction = fraction' := by
  obtain ⟨hwhole, hfraction, front, mark, hmark, hpoint, hs⟩ := h
  obtain ⟨hwhole', hfraction', front', mark', hmark', hpoint', hs'⟩ := h'
  have hnumeral : whole ++ Decimal.fractionText fraction =
      whole' ++ Decimal.fractionText fraction' := by
    -- seen from the end, the number is the run of its characters in front of the mark
    have hreverse := congrArg List.reverse (hs.symm.trans hs')
    simp only [List.reverse_append, List.reverse_cons, List.reverse_nil, List.nil_append,
      List.append_assoc, List.cons_append, List.cons.injEq, true_and] at hreverse
    have hmem {w f : List Char} (hw : ∀ c ∈ w, c.isDigit = true)
        (hf : ∀ c ∈ f, c.isDigit = true) :
        ∀ c ∈ (Decimal.fractionText f).reverse ++ w.reverse, isNumeric c = true := by
      intro c hc
      apply isNumeric_numeral hw hf c
      rwa [← List.reverse_append, List.mem_reverse] at hc
    have hstops {m : Char} (hm : m.isDigit = false) (hp : m ≠ '.') (r : List Char) :
        Stops isNumeric (m :: r) := by
      rw [stops_cons, isNumeric, hm, Bool.false_or, beq_eq_false_iff_ne]
      exact hp
    have hrun := run_unique (hmem hwhole hfraction) (hmem hwhole' hfraction')
      (hstops hmark hpoint front.reverse) (hstops hmark' hpoint' front'.reverse)
      (by simpa only [List.append_assoc] using hreverse)
    simpa only [← List.reverse_append, List.reverse_inj] using hrun
  have hdigits : whole = whole' := run_unique hwhole hwhole' (stops_fractionText fraction)
    (stops_fractionText fraction') hnumeral
  subst hdigits
  exact ⟨rfl, fractionText_injective (List.append_cancel_left hnumeral)⟩

/-! ### What is read -/

-- What is read in front of the seconds: it ends in a designator, if it is not empty.
private structure IsFront (w : List Char) : Prop where
  no_seconds : 'S' ∉ w
  marked : w = [] ∨ ∃ front mark, mark.isDigit = false ∧ mark ≠ '.' ∧ w = front ++ [mark]

private theorem IsFront.nil : IsFront [] := ⟨List.not_mem_nil, .inl rfl⟩

private theorem IsFront.append {v w : List Char} (hv : IsFront v) (hw : IsFront w) :
    IsFront (v ++ w) := by
  refine ⟨?_, ?_⟩
  · rw [List.mem_append, not_or]
    exact ⟨hv.no_seconds, hw.no_seconds⟩
  · rcases hw.marked with rfl | ⟨front, mark, hmark, hpoint, rfl⟩
    · rw [List.append_nil]
      exact hv.marked
    · exact .inr ⟨v ++ front, mark, hmark, hpoint, (List.append_assoc v front [mark]).symm⟩

private theorem isFront_designator {c : Char} (h : c.isDigit = false ∧ c ≠ '.' ∧ c ≠ 'S') :
    IsFront [c] := by
  refine ⟨?_, .inr ⟨[], c, h.1, h.2.1, rfl⟩⟩
  rw [List.mem_singleton]
  exact h.2.2.symm

private theorem isFront_digits {ds : List Char} {designator : Char}
    (hds : ∀ c ∈ ds, c.isDigit = true) (h : IsFront [designator]) :
    IsFront (ds ++ [designator]) := by
  refine ⟨?_, .inr ?_⟩
  · rw [List.mem_append, not_or]
    refine ⟨fun hmem ↦ ?_, h.no_seconds⟩
    have hdigit := hds 'S' hmem
    revert hdigit
    decide
  · rcases h.marked with hnil | ⟨front, mark, hmark, hpoint, heq⟩
    · cases hnil
    · exact ⟨ds ++ front, mark, hmark, hpoint, by rw [heq, List.append_assoc]⟩

private theorem isFront_of_optional_char {ε : Type} {c : Char} {s rest : List Char}
    {o : Option Unit} (hc : IsFront [c])
    (h : (optional (char c) : Scanner ε _) s = .found o rest) :
    ∃ w, s = w ++ rest ∧ IsFront w := by
  rcases optional_eq_found.mp h with ⟨_, -, hchar⟩ | ⟨-, -, rfl⟩
  · obtain rfl := char_eq_found.mp hchar
    exact ⟨[c], rfl, hc⟩
  · exact ⟨[], rfl, .nil⟩

private theorem isFront_of_optional_part {ε : Type} {designator : Char} {s rest : List Char}
    {o : Option UInt32} (hdesignator : IsFront [designator])
    (h : (optional (scanPart designator) : Scanner ε _) s = .found o rest) :
    ∃ w, s = w ++ rest ∧ IsFront w := by
  rcases optional_eq_found.mp h with ⟨_, -, hpart⟩ | ⟨-, -, rfl⟩
  · obtain ⟨ds, _, hds, hpart⟩ := bind_eq_found.mp hpart
    obtain ⟨_, _, hchar, hpart⟩ := bind_eq_found.mp hpart
    obtain ⟨-, rfl⟩ := ofOption_eq_found.mp hpart
    obtain ⟨rfl, -, hdigits, -⟩ := run1_eq_found.mp hds
    obtain rfl := char_eq_found.mp hchar
    exact ⟨ds ++ [designator], by simp, isFront_digits hdigits hdesignator⟩
  · exact ⟨[], rfl, .nil⟩

private theorem exists_of_scanSeconds {ε : Type} {s rest : List Char} {x : Binary64}
    (h : (scanSeconds : Scanner ε Binary64) s = .found x rest) : ∃ whole fraction,
      (∀ c ∈ whole, c.isDigit = true) ∧ (∀ c ∈ fraction, c.isDigit = true) ∧
        s = whole ++ Decimal.fractionText fraction ++ 'S' :: rest ∧
          x = Binary64.ofDecimal false (Numeral.value (whole ++ fraction)) (-fraction.length) := by
  unfold scanSeconds at h
  obtain ⟨whole, mid, hwhole, h⟩ := bind_eq_found.mp h
  obtain ⟨o, _, hfraction, h⟩ := bind_eq_found.mp h
  obtain ⟨_, _, hchar, h⟩ := bind_eq_found.mp h
  rw [pure_apply] at h
  cases h
  obtain ⟨rfl, -, hdigits, -⟩ := run1_eq_found.mp hwhole
  obtain rfl := char_eq_found.mp hchar
  rcases optional_eq_found.mp hfraction with ⟨fraction, rfl, hpointed⟩ | ⟨rfl, -, rfl⟩
  · obtain ⟨_, _, hpoint, hpointed⟩ := bind_eq_found.mp hpointed
    obtain rfl := char_eq_found.mp hpoint
    obtain ⟨rfl, hne, hmore, -⟩ := run1_eq_found.mp hpointed
    refine ⟨whole, fraction, hdigits, hmore, ?_, rfl⟩
    simp [Decimal.fractionText, hne]
  · exact ⟨whole, [], hdigits, by simp, by simp [Decimal.fractionText], rfl⟩

private theorem IsFront.endsInSeconds {w whole fraction : List Char} (h : IsFront w) (hne : w ≠ [])
    (hwhole : ∀ c ∈ whole, c.isDigit = true) (hfraction : ∀ c ∈ fraction, c.isDigit = true) :
    EndsInSeconds (w ++ (whole ++ Decimal.fractionText fraction ++ ['S'])) whole fraction := by
  refine ⟨hwhole, hfraction, ?_⟩
  rcases h.marked with hnil | ⟨front, mark, hmark, hpoint, rfl⟩
  · exact absurd hnil hne
  · exact ⟨front, mark, hmark, hpoint, by simp⟩

-- What a front and the time part behind it make of the seconds.
private theorem seconds_of_scanClockPart {ε : Type} {w s : List Char} {c : ClockPart}
    (hw : IsFront w) (h : (scanClockPart : Scanner ε ClockPart) s = .found c []) :
    ('S' ∉ w ++ s ∧ c.seconds.getD .zero = .zero) ∨
      ∃ whole fraction, EndsInSeconds (w ++ s) whole fraction ∧ c.seconds.getD .zero =
        Binary64.ofDecimal false (Numeral.value (whole ++ fraction)) (-fraction.length) := by
  unfold scanClockPart at h
  obtain ⟨_, _, hmark, h⟩ := bind_eq_found.mp h
  obtain ⟨hours, _, hhours, h⟩ := bind_eq_found.mp h
  obtain ⟨minutes, _, hminutes, h⟩ := bind_eq_found.mp h
  obtain ⟨seconds, _, hseconds, h⟩ := bind_eq_found.mp h
  rw [pure_apply] at h
  cases h
  obtain rfl := char_eq_found.mp hmark
  obtain ⟨u, rfl, hu⟩ := isFront_of_optional_part (isFront_designator (by decide)) hhours
  obtain ⟨v, rfl, hv⟩ := isFront_of_optional_part (isFront_designator (by decide)) hminutes
  have hfront : IsFront (w ++ ('T' :: (u ++ v))) :=
    hw.append ((isFront_designator (by decide)).append (hu.append hv))
  rcases optional_eq_found.mp hseconds with ⟨x, rfl, hx⟩ | ⟨rfl, -, rfl⟩
  · right
    obtain ⟨whole, fraction, hwhole, hfraction, rfl, rfl⟩ := exists_of_scanSeconds hx
    refine ⟨whole, fraction, ?_, rfl⟩
    simpa using hfront.endsInSeconds (by simp) hwhole hfraction
  · left
    exact ⟨by simpa using hfront.no_seconds, rfl⟩

/-- The seconds of a text that is read are the number that it ends in, or zero where it names no
seconds. -/
theorem seconds_of_scan {ε : Type} {s : List Char} {d : Duration}
    (h : (scan : Scanner ε Duration) s = .found d []) :
    ('S' ∉ s ∧ d.seconds = .zero) ∨ ∃ whole fraction, EndsInSeconds s whole fraction ∧
      d.seconds = Binary64.ofDecimal false (Numeral.value (whole ++ fraction))
        (-fraction.length) := by
  unfold scan at h
  obtain ⟨sign, _, hsign, h⟩ := bind_eq_found.mp h
  obtain ⟨_, _, hmark, h⟩ := bind_eq_found.mp h
  obtain ⟨years, _, hyears, h⟩ := bind_eq_found.mp h
  obtain ⟨months, _, hmonths, h⟩ := bind_eq_found.mp h
  obtain ⟨weeks, _, hweeks, h⟩ := bind_eq_found.mp h
  obtain ⟨days, _, hdays, h⟩ := bind_eq_found.mp h
  obtain ⟨clock, _, hclock, h⟩ := bind_eq_found.mp h
  simp only at h
  split at h
  · cases h
  rw [pure_apply] at h
  cases h
  obtain ⟨a, rfl, ha⟩ := isFront_of_optional_char (isFront_designator (by decide)) hsign
  obtain rfl := char_eq_found.mp hmark
  obtain ⟨y, rfl, hy⟩ := isFront_of_optional_part (isFront_designator (by decide)) hyears
  obtain ⟨m, rfl, hm⟩ := isFront_of_optional_part (isFront_designator (by decide)) hmonths
  obtain ⟨w, rfl, hw⟩ := isFront_of_optional_part (isFront_designator (by decide)) hweeks
  obtain ⟨d, rfl, hd⟩ := isFront_of_optional_part (isFront_designator (by decide)) hdays
  have hfront : IsFront (a ++ 'P' :: (y ++ (m ++ (w ++ d)))) :=
    ha.append ((isFront_designator (by decide)).append (hy.append (hm.append (hw.append hd))))
  rcases optional_eq_found.mp hclock with ⟨c, rfl, hc⟩ | ⟨rfl, -, rfl⟩
  · simpa using seconds_of_scanClockPart hfront hc
  · left
    exact ⟨by simpa using hfront.no_seconds, rfl⟩

/-- Seconds alone are read, however many digits they have. -/
theorem scan_seconds {ε : Type} {ds : List Char} (hne : ds ≠ [])
    (hdigits : ∀ c ∈ ds, c.isDigit = true) :
    (scan : Scanner ε Duration) ('P' :: 'T' :: (ds ++ ['S'])) =
      .found ⟨false, 0, 0, 0, 0, 0, 0, .ofDecimal false (Numeral.value ds) 0⟩ [] := by
  have hcalendar : Stops Char.isDigit ('T' :: (ds ++ ['S'])) :=
    (stops_cons _ _ _).mpr (by decide)
  have hseconds : (scanSeconds : Scanner ε Binary64) (ds ++ ['S']) =
      .found (.ofDecimal false (Numeral.value ds) 0) [] := by
    have hnone : ∀ c ∈ ([] : List Char), c.isDigit = true := by simp
    have happend := scanSeconds_append (ε := ε) [] hne hdigits hnone
    simpa [Decimal.fractionText, Binary64.ofDecimal_eq] using happend
  have hclock : (scanClockPart : Scanner ε ClockPart) ('T' :: (ds ++ ['S'])) =
      .found ⟨none, none, some (.ofDecimal false (Numeral.value ds) 0)⟩ [] := by
    unfold scanClockPart
    rw [bind_found (char_cons 'T' _),
      bind_found (optional_missed (scanPart_other hne hdigits (by decide) (by decide))),
      bind_found (optional_missed (scanPart_other hne hdigits (by decide) (by decide))),
      bind_found (optional_found hseconds)]
    rfl
  unfold scan
  rw [bind_found (optional_missed (char_missed ((stops_cons _ _ _).mpr (by decide)))),
    bind_found (char_cons 'P' _), bind_found (optional_missed (scanPart_missed hcalendar)),
    bind_found (optional_missed (scanPart_missed hcalendar)),
    bind_found (optional_missed (scanPart_missed hcalendar)),
    bind_found (optional_missed (scanPart_missed hcalendar)),
    bind_found (optional_found hclock)]
  rfl

private theorem parse_eq_ok_iff {t : String} {d : Duration} :
    parse t = .ok d ↔ (scan : Scanner Empty Duration) t.toList = .found d [] := by
  unfold parse
  rw [← whole?_eq_some]
  cases whole? (scan (ε := Empty)) t.toList <;> simp

private theorem mem_text_of_infinite {d : Duration} (h : d.seconds = .infinite false) :
    'i' ∈ d.text := by
  have hseconds : secondsText d.seconds = ['i', 'n', 'f', 'S'] := by rw [h]; rfl
  have hzero : d.isZero = false := by simp [isZero, h, Binary64.isZero]
  simp [text, hseconds, hzero]

private theorem parse_text_ne_of_infinite {d d' : Duration} (h : d.seconds = .infinite false) :
    parse (String.ofList d.text) ≠ .ok d' := by
  intro hparse
  have hscan := parse_eq_ok_iff.mp hparse
  rw [String.toList_ofList] at hscan
  obtain ⟨w, hw, hchars⟩ := within_scan.reads hscan
  have hmem := mem_text_of_infinite h
  rw [hw, List.append_nil] at hmem
  have hletter := hchars 'i' hmem
  revert hletter
  decide

private theorem parse_text {d : Duration} (h : d.IsPlain) :
    parse (String.ofList d.text) = .ok d := by
  have hscan : (scan : Scanner Empty Duration) (d.text ++ []) = .found d [] :=
    scan_text d h (stops_nil _) (stops_nil _)
  rw [parse_eq_ok_iff, String.toList_ofList]
  rwa [List.append_nil] at hscan

end Duration

/-- A duration that is read comes back from its text exactly if its seconds are a finite number, and
they are unless the digits of seconds at the end of the text denote a number beyond the range. -/
theorem duration_reads_back_iff (t : String) (d : Duration) (h : Duration.parse t = .ok d) :
    (Duration.parse (String.ofList d.text) = .ok d ↔ d.seconds.isFinite = true) ∧
    (d.seconds.isFinite = true ↔ ∀ whole fraction,
      Duration.EndsInSeconds t.toList whole fraction →
        Numeral.value (whole ++ fraction) < Binary64.beyond * 10 ^ fraction.length) := by
  have hscan := Duration.parse_eq_ok_iff.mp h
  constructor
  · constructor
    · intro hback
      rcases Duration.isUnsigned_of_scan hscan with hinfinite | ⟨i, hi⟩
      · exact absurd hback (Duration.parse_text_ne_of_infinite hinfinite)
      · rw [hi]
        rfl
    · intro hfinite
      exact Duration.parse_text ((Duration.isUnsigned_of_scan hscan).isPlain hfinite)
  · rcases Duration.seconds_of_scan hscan with ⟨hnone, hzero⟩ | ⟨whole, fraction, hends, hseconds⟩
    · -- a text that names no seconds does not end in them
      have hfinite : d.seconds.isFinite = true := by rw [hzero]; rfl
      refine ⟨fun _ whole fraction hends ↦ ?_, fun _ ↦ hfinite⟩
      obtain ⟨front, mark, -, -, heq⟩ := hends.behind
      exact absurd (by simp [heq]) hnone
    · rw [hseconds, Binary64.isFinite_ofDecimal]
      constructor
      · intro hrange whole' fraction' hends'
        obtain ⟨rfl, rfl⟩ := hends.unique hends'
        exact hrange
      · intro hall
        exact hall whole fraction hends

/-- What `-P1Y2M3W4DT5H6M07.50S` is read as. -/
def mixedDuration : Duration := ⟨true, 1, 2, 3, 4, 5, 6, .ofDecimal false 75 (-1)⟩

/-- The theorem at a negative duration with a part of each kind. -/
theorem mixed_duration_reads_back :
    Duration.parse "-P1Y2M3W4DT5H6M07.50S" = .ok mixedDuration ∧
      Duration.parse (String.ofList mixedDuration.text) = .ok mixedDuration := by
  have hparse : Duration.parse "-P1Y2M3W4DT5H6M07.50S" = .ok mixedDuration :=
    Duration.parse_eq_ok_iff.mpr (by decide +kernel)
  have hfinite : mixedDuration.seconds.isFinite = true := by decide +kernel
  exact ⟨hparse, (duration_reads_back_iff _ _ hparse).1.mpr hfinite⟩

/-- A duration of so many seconds is read, and does not come back. -/
theorem endless_duration_does_not_read_back :
    ∃ d, Duration.parse (String.ofList ('P' :: 'T' :: (List.replicate 309 '9' ++ ['S']))) = .ok d ∧
      d.seconds.isFinite = false ∧
        Duration.parse (String.ofList d.text) = .error (.duration "PTinfS") := by
  have hdigits : ∀ c ∈ List.replicate 309 '9', c.isDigit = true := by
    intro c hc
    rw [List.eq_of_mem_replicate hc]
    rfl
  have hscan := Duration.scan_seconds (ε := Empty) (by decide) hdigits
  have hinfinite : Binary64.ofDecimal false (Numeral.value (List.replicate 309 '9')) 0 =
      .infinite false := by
    decide +kernel
  rw [hinfinite] at hscan
  refine ⟨⟨false, 0, 0, 0, 0, 0, 0, .infinite false⟩, Duration.parse_eq_ok_iff.mpr ?_, rfl, rfl⟩
  rw [String.toList_ofList]
  exact hscan

end SensorQuery
