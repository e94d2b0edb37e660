import SensorQuery.Time.Interval
import SensorQuery.Proofs.Number.Shortest
import SensorQuery.Proofs.Time.Instant

/-!
# Durations and intervals read back

A duration with finite seconds is read back from its text: parts that are zero are not written and
read as absent, and the seconds are the number that their digits denote. An interval is read back
from its two sides. What is read has seconds that are not negative and years of four digits.
-/

namespace SensorQuery

open Scanner

namespace Duration

/-- The seconds are not negative; they may be too large for a finite number. -/
def IsUnsigned (d : Duration) : Prop :=
  d.seconds = .infinite false ∨ ∃ i, d.seconds = .finite false i

/-- The seconds are a finite number that is not negative. -/
def IsPlain (d : Duration) : Prop := ∃ i, d.seconds = .finite false i

/-- A duration of unsigned and finite seconds is plain. -/
theorem IsUnsigned.isPlain {d : Duration} (h : d.IsUnsigned) (hfinite : d.seconds.isFinite = true) :
    d.IsPlain := by
  rcases h with h | h
  · rw [h] at hfinite
    cases hfinite
  · exact h

/-! ### Parts -/

/-- There is no part where no digit stands. -/
theorem scanPart_missed {ε : Type} {designator : Char} {s : List Char}
    (h : Stops Char.isDigit s) : (scanPart designator : Scanner ε UInt32) s = .missed :=
  bind_missed (run1_missed h)

private theorem partText_of_ne {n : UInt32} (designator : Char) (h : n ≠ 0) :
    partText n designator = Nat.toDigits 10 n.toNat ++ [designator] := if_neg h

private theorem optional_scanPart {ε : Type} (n : UInt32) {designator : Char} {s : List Char}
    (hdesignator : designator.isDigit = false)
    (h : (scanPart designator : Scanner ε UInt32) s = .missed) :
    (optional (scanPart designator) : Scanner ε _) (partText n designator ++ s) =
      .found (if n = 0 then none else some n) s := by
  by_cases hn : n = 0
  · rw [hn, partText, if_pos rfl, if_pos rfl, List.nil_append]
    exact optional_missed h
  · rw [partText_of_ne designator hn, if_neg hn, List.append_assoc, List.singleton_append]
    apply optional_found
    unfold scanPart
    rw [bind_found (digits_append Nat.toDigits_ne_nil (Numeral.isDigit_toDigits _)
      ((stops_cons _ _ _).mpr hdesignator)), bind_found (char_cons designator _),
      Numeral.uint32?_toDigits]
    rfl

/-- Digits with another designator behind them are not the part. -/
theorem scanPart_other {ε : Type} {designator other : Char} {ds s : List Char}
    (hne : ds ≠ []) (hds : ∀ c ∈ ds, c.isDigit = true) (hother : other.isDigit = false)
    (h : other ≠ designator) :
    (scanPart designator : Scanner ε UInt32) (ds ++ other :: s) = .missed := by
  unfold scanPart
  rw [bind_found (digits_append hne hds ((stops_cons _ _ _).mpr hother))]
  exact bind_missed (char_missed ((stops_cons _ _ _).mpr (beq_eq_false_iff_ne.mpr h)))

private theorem scanPart_partText {ε : Type} (n : UInt32) {designator other : Char}
    {s : List Char} (hother : other.isDigit = false) (hne : other ≠ designator)
    (h : (scanPart designator : Scanner ε UInt32) s = .missed) :
    (scanPart designator : Scanner ε UInt32) (partText n other ++ s) = .missed := by
  by_cases hn : n = 0
  · rw [hn, partText, if_pos rfl, List.nil_append]
    exact h
  · rw [partText_of_ne other hn, List.append_assoc, List.singleton_append]
    exact scanPart_other Nat.toDigits_ne_nil (Numeral.isDigit_toDigits _) hother hne

/-! ### Seconds -/

private theorem optional_point {ε : Type} {fraction : List Char} (s : List Char)
    (hdigit : ∀ c ∈ fraction, c.isDigit = true) :
    (optional (do char '.'; digits) : Scanner ε _)
        (Decimal.fractionText fraction ++ 'S' :: s) =
      .found (Decimal.fractionPart fraction) ('S' :: s) := by
  unfold Decimal.fractionText Decimal.fractionPart
  by_cases hnil : fraction = []
  · rw [if_pos hnil, if_pos hnil, List.nil_append]
    exact optional_missed (bind_missed (char_missed ((stops_cons _ _ _).mpr (by decide))))
  · rw [if_neg hnil, if_neg hnil, List.cons_append]
    apply optional_found
    rw [bind_found (char_cons '.' _)]
    exact digits_append hnil hdigit ((stops_cons _ _ _).mpr (by decide))

/-- Seconds are read from their digits, up to the designator. -/
theorem scanSeconds_append {ε : Type} {whole fraction : List Char} (s : List Char)
    (hne : whole ≠ []) (hwhole : ∀ c ∈ whole, c.isDigit = true)
    (hfraction : ∀ c ∈ fraction, c.isDigit = true) :
    (scanSeconds : Scanner ε Binary64) (whole ++ Decimal.fractionText fraction ++ 'S' :: s) =
      .found (Binary64.ofIndex false
        (Binary64.decimalIndex (Numeral.value (whole ++ fraction)) (-fraction.length))) s := by
  have hstops : Stops Char.isDigit (Decimal.fractionText fraction ++ 'S' :: s) := by
    unfold Decimal.fractionText
    split <;> simp
  unfold scanSeconds
  rw [List.append_assoc, bind_found (digits_append hne hwhole hstops),
    bind_found (optional_point s hfraction), bind_found (char_cons 'S' _)]
  simp only [Decimal.fractionPart_getD, Binary64.ofDecimal_eq]
  rfl

-- The seconds that are written are a whole part and a fraction that denote them.
private theorem secondsText_eq (i : Fin Binary64.magnitudes) (h : i.val ≠ 0) :
    ∃ whole fraction, whole ≠ [] ∧ (∀ c ∈ whole, c.isDigit = true) ∧
      (∀ c ∈ fraction, c.isDigit = true) ∧
      secondsText (.finite false i) = whole ++ Decimal.fractionText fraction ++ ['S'] ∧
      Binary64.decimalIndex (Numeral.value (whole ++ fraction)) (-fraction.length) = i := by
  obtain ⟨whole, fraction, hne, hwhole, hfraction, htext, hindex⟩ :=
    Decimal.exists_laidOut (Decimal.shortest i)
  refine ⟨whole, fraction, hne, hwhole, hfraction, ?_, hindex.trans (Decimal.shortest_denotes i)⟩
  have hpositive : (Binary64.finite false i).isPositive = true := by
    simp [Binary64.isPositive, h]
  rw [secondsText, if_pos hpositive]
  simp only [Binary64.plainText, Binary64.textWith, Binary64.signText, Bool.false_eq_true,
    ite_false, List.nil_append, h, htext]
  rfl

private theorem isPositive_finite (i : Fin Binary64.magnitudes) :
    (Binary64.finite false i).isPositive = decide (i.val ≠ 0) := by
  simp [Binary64.isPositive]

private theorem secondsText_zero {i : Fin Binary64.magnitudes} (h : i.val = 0) :
    secondsText (.finite false i) = [] := by
  rw [secondsText, isPositive_finite, if_neg (by simp [h])]

private theorem optional_scanSeconds {ε : Type} (i : Fin Binary64.magnitudes) {s : List Char}
    (h : Stops Char.isDigit s) :
    (optional scanSeconds : Scanner ε _) (secondsText (.finite false i) ++ s) =
      .found (if i.val = 0 then none else some (.finite false i)) s := by
  by_cases hi : i.val = 0
  · rw [secondsText_zero hi, if_pos hi, List.nil_append]
    exact optional_missed (bind_missed (run1_missed h))
  · obtain ⟨whole, fraction, hne, hwhole, hfraction, htext, hindex⟩ := secondsText_eq i hi
    rw [htext, if_neg hi, List.append_assoc, List.singleton_append]
    apply optional_found
    rw [scanSeconds_append s hne hwhole hfraction, hindex]
    rw [Binary64.ofIndex, dif_pos i.isLt]

private theorem scanPart_secondsText {ε : Type} (i : Fin Binary64.magnitudes) {designator : Char}
    {s : List Char} (hpoint : '.' ≠ designator) (hseconds : 'S' ≠ designator)
    (h : Stops Char.isDigit s) :
    (scanPart designator : Scanner ε UInt32) (secondsText (.finite false i) ++ s) = .missed := by
  by_cases hi : i.val = 0
  · rw [secondsText_zero hi, List.nil_append]
    exact scanPart_missed h
  · obtain ⟨whole, fraction, hne, hwhole, -, htext, -⟩ := secondsText_eq i hi
    rw [htext, Decimal.fractionText]
    split
    · simpa using scanPart_other hne hwhole (by decide) hseconds
    · simpa using scanPart_other hne hwhole (by decide) hpoint

/-! ### The whole -/

-- The clock part as it is written behind its `T`.
private def clockText (d : Duration) : List Char :=
  partText d.hours 'H' ++ partText d.minutes 'M' ++ secondsText d.seconds

private def calendarText (d : Duration) : List Char :=
  partText d.years 'Y' ++ partText d.months 'M' ++ partText d.weeks 'W' ++ partText d.days 'D'

private theorem scanClockPart_append {ε : Type} (d : Duration) {i : Fin Binary64.magnitudes}
    (hi : d.seconds = .finite false i) {rest : List Char} (h : Stops Char.isDigit rest) :
    (scanClockPart : Scanner ε ClockPart) ('T' :: (d.clockText ++ rest)) =
      .found ⟨if d.hours = 0 then none else some d.hours,
        if d.minutes = 0 then none else some d.minutes,
        if i.val = 0 then none else some (.finite false i)⟩ rest := by
  unfold scanClockPart clockText
  rw [hi]
  simp only [List.append_assoc]
  rw [bind_found (char_cons 'T' _),
    bind_found (optional_scanPart d.hours (by decide) (scanPart_partText _ (by decide) (by decide)
      (scanPart_secondsText i (by decide) (by decide) h))),
    bind_found (optional_scanPart d.minutes (by decide)
      (scanPart_secondsText i (by decide) (by decide) h)),
    bind_found (optional_scanSeconds i h)]
  rfl

private theorem optional_sign {ε : Type} (negative : Bool) (s : List Char) :
    (optional (char '-') : Scanner ε _) ((if negative then ['-'] else []) ++ 'P' :: s) =
      .found (if negative then some () else none) ('P' :: s) := by
  cases negative with
  | true => exact optional_found (char_cons '-' _)
  | false => exact optional_missed (char_missed ((stops_cons _ _ _).mpr (by decide)))

-- The calendar parts are read in order up to a text that continues none of them.
private theorem calendar_append {ε β : Type} (d : Duration) {s : List Char}
    (h : Stops Char.isDigit s)
    (f : Option UInt32 → Option UInt32 → Option UInt32 → Option UInt32 → Scanner ε β) :
    (do
      let years ← optional (scanPart 'Y')
      let months ← optional (scanPart 'M')
      let weeks ← optional (scanPart 'W')
      let days ← optional (scanPart 'D')
      f years months weeks days) (d.calendarText ++ s) =
        f (if d.years = 0 then none else some d.years)
          (if d.months = 0 then none else some d.months)
          (if d.weeks = 0 then none else some d.weeks) (if d.days = 0 then none else some d.days)
          s := by
  have hpart (designator : Char) : (scanPart designator : Scanner ε UInt32) s = .missed :=
    scanPart_missed h
  unfold calendarText
  simp only [List.append_assoc]
  rw [bind_found (optional_scanPart d.years (by decide) (scanPart_partText _ (by decide) (by decide)
      (scanPart_partText _ (by decide) (by decide)
        (scanPart_partText _ (by decide) (by decide) (hpart 'Y'))))),
    bind_found (optional_scanPart d.months (by decide) (scanPart_partText _ (by decide) (by decide)
      (scanPart_partText _ (by decide) (by decide) (hpart 'M')))),
    bind_found (optional_scanPart d.weeks (by decide)
      (scanPart_partText _ (by decide) (by decide) (hpart 'W'))),
    bind_found (optional_scanPart d.days (by decide) (hpart 'D'))]

-- The time part with its `T`, which is absent where it is empty beside other parts.
private def clockPortion (d : Duration) : List Char :=
  if d.isZero then ['T', '0', 'S']
  else if d.clockText.isEmpty then [] else 'T' :: d.clockText

private theorem clockText_eq_nil {d : Duration} {i : Fin Binary64.magnitudes}
    (hi : d.seconds = .finite false i) :
    d.clockText = [] ↔ d.hours = 0 ∧ d.minutes = 0 ∧ i.val = 0 := by
  have hpart (n : UInt32) (designator : Char) : partText n designator = [] ↔ n = 0 := by
    unfold partText
    split <;> simp_all
  have hseconds : secondsText d.seconds = [] ↔ i.val = 0 := by
    rw [hi, secondsText, isPositive_finite]
    split <;> simp_all
  rw [clockText, List.append_eq_nil_iff, List.append_eq_nil_iff, hpart, hpart, hseconds, and_assoc]

private theorem isZero_iff {d : Duration} {i : Fin Binary64.magnitudes}
    (hi : d.seconds = .finite false i) :
    d.isZero = true ↔ (d.years = 0 ∧ d.months = 0 ∧ d.weeks = 0 ∧ d.days = 0) ∧
      d.hours = 0 ∧ d.minutes = 0 ∧ i.val = 0 := by
  simp only [isZero, hi, Binary64.isZero, Bool.and_eq_true, decide_eq_true_eq, and_assoc]

private theorem text_eq (d : Duration) {i : Fin Binary64.magnitudes}
    (hi : d.seconds = .finite false i) :
    d.text = (if d.negative then ['-'] else []) ++ 'P' :: (d.calendarText ++ d.clockPortion) := by
  have htext : d.text = (if d.negative then ['-'] else []) ++ 'P' ::
      if d.isZero then ['T', '0', 'S']
      else d.calendarText ++ if d.clockText.isEmpty then [] else 'T' :: d.clockText := rfl
  rw [htext, clockPortion]
  by_cases hz : d.isZero = true
  · obtain ⟨⟨hy, hm, hw, hd⟩, -⟩ := (isZero_iff hi).mp hz
    have hcalendar : d.calendarText = [] := by
      simp only [calendarText, hy, hm, hw, hd, partText, ite_true, List.append_nil]
    rw [if_pos hz, if_pos hz, hcalendar, List.nil_append]
  · rw [if_neg hz, if_neg hz]

private theorem scanClockPart_zero {ε : Type} (rest : List Char) :
    (scanClockPart : Scanner ε ClockPart) ('T' :: '0' :: 'S' :: rest) =
      .found ⟨none, none, some .zero⟩ rest := by
  have hpart (designator : Char) (h : 'S' ≠ designator) :
      (scanPart designator : Scanner ε UInt32) ('0' :: 'S' :: rest) = .missed :=
    scanPart_other (by simp : ['0'] ≠ []) (by simp) (by decide) h
  have hseconds : (scanSeconds : Scanner ε Binary64) ('0' :: 'S' :: rest) = .found .zero rest := by
    have hzero : ∀ c ∈ ['0'], c.isDigit = true := by simp
    have hnone : ∀ c ∈ ([] : List Char), c.isDigit = true := by simp
    have happend := scanSeconds_append (ε := ε) rest (by simp) hzero hnone
    have hvalue : Numeral.value (['0'] ++ []) = 0 := by decide
    rw [hvalue, Binary64.decimalIndex_zero] at happend
    exact happend
  unfold scanClockPart
  rw [bind_found (char_cons 'T' _), bind_found (optional_missed (hpart 'H' (by decide))),
    bind_found (optional_missed (hpart 'M' (by decide))), bind_found (optional_found hseconds)]
  rfl

-- What is made of the clock part that was found.
private structure ClockReads (d : Duration) (clock : Option ClockPart) : Prop where
  present : (clock.map ClockPart.isEmpty).getD
    (decide (d.years = 0) && decide (d.months = 0) && decide (d.weeks = 0) &&
      decide (d.days = 0)) = false
  hours : (clock.getD ⟨none, none, none⟩).hours.getD 0 = d.hours
  minutes : (clock.getD ⟨none, none, none⟩).minutes.getD 0 = d.minutes
  seconds : (clock.getD ⟨none, none, none⟩).seconds.getD .zero = d.seconds

private theorem getD_ite {α : Type} (a b : α) (p : Prop) [Decidable p] (h : p → a = b) :
    (if p then none else some a).getD b = a := by
  split
  · next hp => exact (h hp).symm
  · rfl

private theorem isNone_ite {α : Type} (a : α) (p : Prop) [Decidable p] :
    (if p then none else some a).isNone = decide p := by
  split <;> simp_all

private theorem optional_scanClockPart {ε : Type} (d : Duration) {i : Fin Binary64.magnitudes}
    (hi : d.seconds = .finite false i) {rest : List Char} (hdigit : Stops Char.isDigit rest)
    (hclock : Stops (· == 'T') rest) :
    ∃ clock, (optional scanClockPart : Scanner ε _) (d.clockPortion ++ rest) =
      .found clock rest ∧ ClockReads d clock := by
  have hzero (h : i.val = 0) : d.seconds = .zero := by
    rw [hi, Binary64.zero]
    congr 1
    exact Fin.ext h
  unfold clockPortion
  by_cases hz : d.isZero = true
  · obtain ⟨-, hh, hm, hs⟩ := (isZero_iff hi).mp hz
    rw [if_pos hz]
    exact ⟨some ⟨none, none, some .zero⟩, optional_found (scanClockPart_zero rest),
      rfl, hh.symm, hm.symm, (hzero hs).symm⟩
  · rw [if_neg hz]
    by_cases hnil : d.clockText = []
    · obtain ⟨hh, hm, hs⟩ := (clockText_eq_nil hi).mp hnil
      have hempty : d.clockText.isEmpty = true := List.isEmpty_iff.mpr hnil
      rw [if_pos hempty, List.nil_append]
      refine ⟨none, optional_missed (bind_missed (char_missed hclock)), ?_, hh.symm, hm.symm,
        (hzero hs).symm⟩
      rw [isZero_iff hi] at hz
      simp only [Option.map_none, Option.getD_none, ← Bool.decide_and, decide_eq_false_iff_not]
      exact fun hcalendar ↦ hz ⟨by simpa only [and_assoc] using hcalendar, hh, hm, hs⟩
    · have hempty : d.clockText.isEmpty = false := by simp [hnil]
      rw [hempty, if_neg Bool.false_ne_true]
      refine ⟨_, optional_found (scanClockPart_append d hi hdigit), ?_, getD_ite _ _ _ id,
        getD_ite _ _ _ id, ?_⟩
      · rw [clockText_eq_nil hi] at hnil
        simp only [Option.map_some, Option.getD_some, ClockPart.isEmpty, isNone_ite,
          ← Bool.decide_and, decide_eq_false_iff_not]
        exact fun hall ↦ hnil (by simpa only [and_assoc] using hall)
      · rw [hi] at hzero ⊢
        exact getD_ite _ _ _ hzero

private theorem isSome_sign (negative : Bool) :
    (if negative then some () else none).isSome = negative := by
  cases negative <;> rfl

/-- A duration with finite seconds is read back from its text. -/
theorem scan_text {ε : Type} (d : Duration) (h : d.IsPlain) {rest : List Char}
    (hdigit : Stops Char.isDigit rest) (hclock : Stops (· == 'T') rest) :
    (scan : Scanner ε Duration) (d.text ++ rest) = .found d rest := by
  obtain ⟨i, hi⟩ := h
  obtain ⟨clock, hfound, hreads⟩ := optional_scanClockPart (ε := ε) d hi hdigit hclock
  have hstops : Stops Char.isDigit (d.clockPortion ++ rest) := by
    unfold clockPortion
    split
    · exact (stops_cons _ _ _).mpr (by decide)
    · split
      · exact hdigit
      · exact (stops_cons _ _ _).mpr (by decide)
  unfold scan
  rw [text_eq d hi]
  simp only [List.append_assoc, List.cons_append]
  rw [bind_found (optional_sign d.negative _), bind_found (char_cons 'P' _)]
  refine (calendar_append d hstops _).trans ?_
  rw [bind_found hfound]
  simp only [isNone_ite, hreads.present, Bool.false_eq_true, ite_false, isSome_sign,
    getD_ite _ _ _ id, hreads.hours, hreads.minutes, hreads.seconds]
  rfl

private theorem scan_missed {ε : Type} {s : List Char} (hminus : Stops (· == '-') s)
    (hp : Stops (· == 'P') s) : (scan : Scanner ε Duration) s = .missed := by
  unfold scan
  rw [bind_found (optional_missed (char_missed hminus))]
  exact bind_missed (char_missed hp)

/-- A duration begins with its `P` or with a sign. -/
theorem stops_text {p : Char → Bool} (d : Duration) (rest : List Char) (hp : p 'P' = false)
    (hminus : p '-' = false) : Stops p (d.text ++ rest) := by
  unfold text
  simp only
  split
  · exact (stops_cons _ _ _).mpr hminus
  · exact (stops_cons _ _ _).mpr hp

/-! ### What is read -/

private theorem isUnsigned_ofIndex (i : Nat) :
    Binary64.ofIndex false i = .infinite false ∨
      ∃ j, Binary64.ofIndex false i = .finite false j := by
  unfold Binary64.ofIndex
  split
  · exact .inr ⟨_, rfl⟩
  · exact .inl rfl

private theorem unsigned_of_scanSeconds {ε : Type} {s rest : List Char} {x : Binary64}
    (h : (scanSeconds : Scanner ε Binary64) s = .found x rest) :
    x = .infinite false ∨ ∃ i, x = .finite false i := by
  unfold scanSeconds at h
  obtain ⟨_, _, _, h⟩ := bind_eq_found.mp h
  obtain ⟨_, _, _, h⟩ := bind_eq_found.mp h
  obtain ⟨_, _, _, h⟩ := bind_eq_found.mp h
  rw [pure_apply] at h
  cases h
  rw [Binary64.ofDecimal_eq]
  exact isUnsigned_ofIndex _

private theorem unsigned_of_scanClockPart {ε : Type} {s rest : List Char} {c : ClockPart}
    (h : (scanClockPart : Scanner ε ClockPart) s = .found c rest) :
    c.seconds.getD .zero = .infinite false ∨ ∃ i, c.seconds.getD .zero = .finite false i := by
  unfold scanClockPart at h
  obtain ⟨_, _, _, h⟩ := bind_eq_found.mp h
  obtain ⟨_, _, _, h⟩ := bind_eq_found.mp h
  obtain ⟨_, _, _, h⟩ := bind_eq_found.mp h
  obtain ⟨seconds, _, hseconds, h⟩ := bind_eq_found.mp h
  rw [pure_apply] at h
  cases h
  rcases optional_eq_found.mp hseconds with ⟨x, rfl, hx⟩ | ⟨rfl, -⟩
  · exact unsigned_of_scanSeconds hx
  · exact .inr ⟨_, rfl⟩

/-- The seconds of a duration that is read are not negative. -/
theorem isUnsigned_of_scan {ε : Type} {s rest : List Char} {d : Duration}
    (h : (scan : Scanner ε Duration) s = .found d rest) : d.IsUnsigned := by
  unfold scan at h
  obtain ⟨_, _, _, h⟩ := bind_eq_found.mp h
  obtain ⟨_, _, _, h⟩ := bind_eq_found.mp h
  obtain ⟨_, _, _, h⟩ := bind_eq_found.mp h
  obtain ⟨_, _, _, h⟩ := bind_eq_found.mp h
  obtain ⟨_, _, _, h⟩ := bind_eq_found.mp h
  obtain ⟨_, _, _, h⟩ := bind_eq_found.mp h
  obtain ⟨clock, _, hclock, h⟩ := bind_eq_found.mp h
  simp only at h
  split at h
  · cases h
  · rw [pure_apply] at h
    cases h
    rcases optional_eq_found.mp hclock with ⟨c, rfl, hc⟩ | ⟨rfl, -⟩
    · exact unsigned_of_scanClockPart hc
    · exact .inr ⟨_, rfl⟩

/-- A duration is made of the characters of times. -/
theorem within_scan {ε : Type} : Within isTimeChar (scan : Scanner ε Duration) := by
  have hdigits : Within isTimeChar (digits : Scanner ε (List Char)) :=
    .run1 isTimeChar_of_isDigit
  have hpart (designator : Char) (h : isTimeChar designator = true) :
      Within isTimeChar (optional (scanPart designator) : Scanner ε _) :=
    .optional (.bind hdigits fun _ ↦ .bind (.char h) fun _ ↦ .ofOption _)
  have hseconds : Within isTimeChar (scanSeconds : Scanner ε Binary64) :=
    .bind hdigits fun _ ↦ .bind (.optional (.bind (.char (by decide)) fun _ ↦ hdigits)) fun _ ↦
      .bind (.char (by decide)) fun _ ↦ .pure _
  have hclock : Within isTimeChar (scanClockPart : Scanner ε ClockPart) :=
    .bind (.char (by decide)) fun _ ↦ .bind (hpart 'H' (by decide)) fun _ ↦
      .bind (hpart 'M' (by decide)) fun _ ↦ .bind (.optional hseconds) fun _ ↦ .pure _
  refine .bind (.optional (.char (by decide))) fun _ ↦ .bind (.char (by decide)) fun _ ↦
    .bind (hpart 'Y' (by decide)) fun _ ↦ .bind (hpart 'M' (by decide)) fun _ ↦
    .bind (hpart 'W' (by decide)) fun _ ↦ .bind (hpart 'D' (by decide)) fun _ ↦
    .bind (.optional hclock) fun clock ↦ ?_
  simp only
  split
  · exact .miss
  · exact .pure _

end Duration

namespace Interval

/-- Its instants have years of four digits, and its durations have the property. -/
def Sides (P : Duration → Prop) : Interval → Prop
  | .between start stop _ => start.date.IsShort ∧ stop.date.IsShort
  | .startingAt start length => start.date.IsShort ∧ P length
  | .endingAt length stop => P length ∧ stop.date.IsShort

private theorem instant_missed {ε : Type} {s : List Char} (h : Stops Char.isDigit s) :
    (scanInstant : Scanner ε Bound) s = .missed :=
  bind_missed (bind_missed (bind_missed (exactlyOf_missed (by decide) h)))

private theorem scanInstant_text {ε : Type} (t : Instant) (h : t.date.IsShort) (rest : List Char) :
    (scanInstant : Scanner ε Bound) (t.text ++ rest) = .found (.instant t) rest :=
  bind_found (Instant.scan_text t h rest)

private theorem scanDuration_text {ε : Type} (d : Duration) (h : d.IsPlain) {rest : List Char}
    (hdigit : Stops Char.isDigit rest) (hclock : Stops (· == 'T') rest) :
    (scanDuration : Scanner ε Bound) (d.text ++ rest) = .found (.duration d) rest :=
  bind_found (Duration.scan_text d h hdigit hclock)

private theorem scanSides_text {ε : Type} (i : Interval) (h : i.Sides Duration.IsPlain)
    {rest : List Char} (hdigit : Stops Char.isDigit rest) (hclock : Stops (· == 'T') rest) :
    (scanSides : Scanner ε (Bound × Bound)) (i.text ++ rest) = .found (i.start, i.stop) rest := by
  unfold scanSides text sidesText
  cases i with
  | between a b hle =>
    simp only [start, stop, Bound.text, List.append_assoc, List.cons_append]
    apply orElse_found
    rw [bind_found (scanInstant_text a h.1 _), bind_found (char_cons '/' _),
      bind_found (orElse_found (scanInstant_text b h.2 rest))]
    rfl
  | startingAt a length =>
    simp only [start, stop, Bound.text, List.append_assoc, List.cons_append]
    apply orElse_found
    rw [bind_found (scanInstant_text a h.1 _), bind_found (char_cons '/' _), bind_apply,
      orElse_missed (instant_missed (length.stops_text rest (by decide) (by decide))),
      scanDuration_text length h.2 hdigit hclock]
    rfl
  | endingAt length b =>
    simp only [start, stop, Bound.text, List.append_assoc, List.cons_append]
    rw [orElse_missed
      (bind_missed (instant_missed (length.stops_text _ (by decide) (by decide))))]
    rw [bind_found (scanDuration_text length h.1 ((stops_cons _ _ _).mpr (by decide))
        ((stops_cons _ _ _).mpr (by decide))), bind_found (char_cons '/' _),
      bind_found (scanInstant_text b h.2 rest)]
    rfl

/-- An interval is read back from its text. -/
theorem scan_text (i : Interval) (h : i.Sides Duration.IsPlain) {rest : List Char}
    (hdigit : Stops Char.isDigit rest) (hclock : Stops (· == 'T') rest) :
    scan (i.text ++ rest) = .found i rest := by
  unfold scan
  rw [bind_found (scanSides_text i h hdigit hclock)]
  cases i with
  | between a b hle => simp only [start, stop, ofBounds, hle, dite_true, ofExcept_ok]
  | startingAt a length => rfl
  | endingAt length b => rfl

/-- An interval begins with a digit, with `P` or with a sign. -/
theorem stops_text {P : Duration → Prop} {p : Char → Bool} (i : Interval) (h : i.Sides P)
    (hdigit : ∀ c, c.isDigit = true → p c = false) (hp : p 'P' = false) (hminus : p '-' = false)
    (rest : List Char) : Stops p (i.text ++ rest) := by
  unfold text sidesText
  rw [List.append_assoc]
  cases i with
  | between a b hle => exact a.stops_text h.1 hdigit _
  | startingAt a length => exact a.stops_text h.1 hdigit _
  | endingAt length b => exact length.stops_text _ hp hminus

private theorem scanDuration_missed {ε : Type} {s : List Char}
    (h : ∀ p : Char → Bool, (∀ c, c.isDigit = true → p c = false) → Stops p s) :
    (scanDuration : Scanner ε Bound) s = .missed := by
  have hne (mark : Char) (hmark : mark.isDigit = false) : Stops (· == mark) s := by
    apply h
    intro c hc
    rw [beq_eq_false_iff_ne]
    rintro rfl
    rw [hmark] at hc
    cases hc
  exact bind_missed (Duration.scan_missed (hne '-' (by decide)) (hne 'P' (by decide)))

/-- An instant without a slash behind it is no interval. -/
theorem scan_instant_missed (t : Instant) (h : t.date.IsShort) {rest : List Char}
    (hslash : Stops (· == '/') rest) : scan (t.text ++ rest) = .missed := by
  apply bind_missed
  unfold scanSides
  rw [orElse_missed]
  · exact bind_missed (scanDuration_missed fun p hp ↦ t.stops_text h hp rest)
  · rw [bind_found (scanInstant_text t h rest)]
    exact bind_missed (char_missed hslash)

/-- A date without a time behind it is no instant and no interval. -/
theorem scan_date_missed (d : Date) (h : d.IsShort) {rest : List Char}
    (hclock : Stops (· == 'T') rest) : scan (d.text ++ rest) = .missed := by
  have hinstant : (scanInstant : Scanner IntervalFault Bound) (d.text ++ rest) = .missed := by
    apply bind_missed
    unfold Instant.scan
    rw [bind_found (Date.scan_text d h rest)]
    exact bind_missed (char_missed hclock)
  apply bind_missed
  unfold scanSides
  rw [orElse_missed (bind_missed hinstant)]
  exact bind_missed (scanDuration_missed fun p hp ↦ d.stops_text h hp rest)

-- A side that was read.
private def Read : Bound → Prop
  | .instant t => t.date.IsShort
  | .duration d => d.IsUnsigned

private theorem read_of_scanInstant {ε : Type} {s rest : List Char} {b : Bound}
    (h : (scanInstant : Scanner ε Bound) s = .found b rest) :
    ∃ t, b = .instant t ∧ (Instant.scan : Scanner ε Instant) s = .found t rest := by
  obtain ⟨t, mid, ht, h⟩ := bind_eq_found.mp h
  rw [pure_apply] at h
  cases h
  exact ⟨t, rfl, ht⟩

private theorem read_of_scanDuration {ε : Type} {s rest : List Char} {b : Bound}
    (h : (scanDuration : Scanner ε Bound) s = .found b rest) :
    ∃ d, b = .duration d ∧ (Duration.scan : Scanner ε Duration) s = .found d rest := by
  obtain ⟨d, mid, hd, h⟩ := bind_eq_found.mp h
  rw [pure_apply] at h
  cases h
  exact ⟨d, rfl, hd⟩

-- One side is an instant at the start, or behind a duration and a slash.
private theorem exists_of_scanSides {ε : Type} {s rest : List Char} {p : Bound × Bound}
    (h : (scanSides : Scanner ε (Bound × Bound)) s = .found p rest) : Read p.1 ∧ Read p.2 ∧
      ((∃ t mid, (Instant.scan : Scanner ε Instant) s = .found t mid) ∨
        ∃ d mid t last, (Duration.scan : Scanner ε Duration) s = .found d ('/' :: mid) ∧
          (Instant.scan : Scanner ε Instant) mid = .found t last) := by
  rcases orElse_eq_found.mp h with h | ⟨-, h⟩
  · obtain ⟨a, mid, ha, h⟩ := bind_eq_found.mp h
    obtain ⟨_, _, _, h⟩ := bind_eq_found.mp h
    obtain ⟨b, _, hb, h⟩ := bind_eq_found.mp h
    rw [pure_apply] at h
    cases h
    obtain ⟨t, rfl, ht⟩ := read_of_scanInstant ha
    refine ⟨Instant.isShort_of_scan ht, ?_, .inl ⟨t, mid, ht⟩⟩
    rcases orElse_eq_found.mp hb with hb | ⟨-, hb⟩
    · obtain ⟨u, rfl, hu⟩ := read_of_scanInstant hb
      exact Instant.isShort_of_scan hu
    · obtain ⟨d, rfl, hd⟩ := read_of_scanDuration hb
      exact Duration.isUnsigned_of_scan hd
  · obtain ⟨a, _, ha, h⟩ := bind_eq_found.mp h
    obtain ⟨_, mid, hslash, h⟩ := bind_eq_found.mp h
    obtain ⟨b, last, hb, h⟩ := bind_eq_found.mp h
    rw [pure_apply] at h
    cases h
    obtain ⟨d, rfl, hd⟩ := read_of_scanDuration ha
    obtain ⟨t, rfl, ht⟩ := read_of_scanInstant hb
    obtain rfl := char_eq_found.mp hslash
    exact ⟨Duration.isUnsigned_of_scan hd, Instant.isShort_of_scan ht,
      .inr ⟨d, mid, t, rest, hd, ht⟩⟩

/-- An interval that is read has short dates and seconds that are not negative. -/
theorem sides_of_scan {s rest : List Char} {i : Interval} (h : scan s = .found i rest) :
    i.Sides Duration.IsUnsigned := by
  obtain ⟨⟨a, b⟩, mid, hp, h⟩ := bind_eq_found.mp h
  obtain ⟨ha, hb, -⟩ := exists_of_scanSides hp
  obtain ⟨hi, -⟩ := ofExcept_eq_found.mp h
  cases a with
  | instant t =>
    cases b with
    | instant u =>
      simp only [ofBounds] at hi
      split at hi
      · cases hi
        exact ⟨ha, hb⟩
      · cases hi
    | duration d =>
      cases hi
      exact ⟨ha, hb⟩
  | duration d =>
    cases b with
    | instant u =>
      cases hi
      exact ⟨ha, hb⟩
    | duration e => cases hi

/-- An interval is made of the characters of times. -/
theorem within_scanSides {ε : Type} :
    Within isTimeChar (scanSides : Scanner ε (Bound × Bound)) := by
  have hinstant : Within isTimeChar (scanInstant : Scanner ε Bound) :=
    .bind Instant.within_scan fun _ ↦ .pure _
  have hduration : Within isTimeChar (scanDuration : Scanner ε Bound) :=
    .bind Duration.within_scan fun _ ↦ .pure _
  exact .orElse
    (.bind hinstant fun _ ↦ .bind (.char (by decide)) fun _ ↦
      .bind (.orElse hinstant hduration) fun _ ↦ .pure _)
    (.bind hduration fun _ ↦ .bind (.char (by decide)) fun _ ↦ .bind hinstant fun _ ↦ .pure _)

/-- No interval starts where no hyphen follows its front within what may stand in times. -/
theorem scan_missed {s : List Char} (h : '-' ∉ (s.takeWhile isTimeChar).tail) :
    scan s = .missed := by
  apply bind_missed
  apply within_scanSides.eq_missed
  intro p rest hp
  have hinstant {t : List Char} (ht : '-' ∉ (t.takeWhile isTimeChar).tail) {u last} :
      (Instant.scan : Scanner IntervalFault Instant) t ≠ .found u last := by
    rw [Instant.scan_missed ht]
    exact fun hfound ↦ by cases hfound
  rcases exists_of_scanSides hp with ⟨-, -, ⟨t, mid, ht⟩ | ⟨d, mid, t, last, hd, ht⟩⟩
  · exact hinstant h ht
  · refine hinstant (fun hmem ↦ h ?_) ht
    -- what the duration reads, and the slash, stand before the instant
    obtain ⟨w, rfl, hw⟩ := Duration.within_scan.reads hd
    rw [List.takeWhile_append_of_pos hw, List.takeWhile_cons_of_pos (by decide)]
    have hmem' := List.mem_of_mem_tail hmem
    cases w with
    | nil => exact hmem'
    | cons c w => simp [hmem']

end Interval

end SensorQuery
