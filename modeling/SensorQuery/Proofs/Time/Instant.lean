import SensorQuery.Time.Instant
import SensorQuery.Proofs.Number.Numeral

/-!
# Instants read back

Dates, times of day, offsets and instants are read back from their text, whatever follows it, as
long as it cannot be part of a fraction. Texts hold years of four digits only, so this is asked of
the date (`Date.IsShort`), and every date that is read has it.
-/

-- A power of a number is computed as such, whatever algebraic structures are in scope.
attribute [local instance (2000)] instPowNat

namespace SensorQuery

open Scanner

/-- A character that may stand in a date, a time, a duration or an interval. -/
def isTimeChar (c : Char) : Bool :=
  c.isDigit || ['-', '+', ':', '.', '/', 'P', 'Y', 'M', 'W', 'D', 'T', 'H', 'S', 'Z'].contains c

/-- A digit may stand in a time. -/
theorem isTimeChar_of_isDigit (c : Char) (h : c.isDigit = true) : isTimeChar c = true := by
  rw [isTimeChar, h, Bool.true_or]

private theorem exactlyOf_padded {ε : Type} {width n : Nat} (rest : List Char) (hw : 0 < width)
    (h : n < 10 ^ width) :
    (exactlyOf Char.isDigit width : Scanner ε (List Char)) (Numeral.padded width n ++ rest) =
      .found (Numeral.padded width n) rest :=
  exactlyOf_append (Numeral.length_padded hw h) (Numeral.isDigit_padded width n)

private theorem stops_padded {p : Char → Bool} {width n : Nat}
    (hp : ∀ c, c.isDigit = true → p c = false) (rest : List Char) :
    Stops p (Numeral.padded width n ++ rest) := by
  have hdigit := Numeral.isDigit_padded width n
  cases h : Numeral.padded width n with
  | nil =>
    rw [Numeral.padded, List.append_eq_nil_iff] at h
    exact absurd h.2 Nat.toDigits_ne_nil
  | cons c w =>
    rw [h] at hdigit
    exact (stops_cons _ _ _).mpr (hp c (hdigit c List.mem_cons_self))

namespace Clock

/-- A time of day begins with a digit. -/
theorem stops_text {p : Char → Bool} (c : Clock) (hp : ∀ d, d.isDigit = true → p d = false)
    (rest : List Char) : Stops p (c.text ++ rest) := by
  unfold text
  simp only [List.append_assoc, List.cons_append]
  exact stops_padded hp _

private theorem nanoOfDigits_eq {ds : List Char} (h : ds.length ≤ 9) :
    nanoOfDigits ds = 10 ^ (9 - ds.length) * Numeral.value ds := by
  unfold nanoOfDigits
  rw [List.take_append, List.take_of_length_le h, List.take_replicate, Nat.min_eq_left (by omega),
    Numeral.value_append_zeros]

private theorem nanoOfDigits_padded {width n : Nat} (hw : 0 < width) (hle : width ≤ 9)
    (h : n < 10 ^ width) : nanoOfDigits (Numeral.padded width n) = 10 ^ (9 - width) * n := by
  have hlength := Numeral.length_padded hw h
  rw [nanoOfDigits_eq (by omega), hlength, Numeral.value_padded]

private theorem fractionText_eq (nano : Fin 1000000000) (h : nano.val ≠ 0) :
    ∃ ds, fractionText nano = '.' :: ds ∧ ds ≠ [] ∧ (∀ c ∈ ds, c.isDigit = true) ∧
      nanoOfDigits ds = nano := by
  have hlt := nano.isLt
  have hne {width n : Nat} (hw : 0 < width) (hn : n < 10 ^ width) :
      Numeral.padded width n ≠ [] := by
    have := Numeral.length_padded hw hn
    intro hnil
    rw [hnil, List.length_nil] at this
    omega
  unfold fractionText
  rw [if_neg h]
  split
  · next hthree =>
    have hn : nano.val / 1000000 < 10 ^ 3 := by omega
    refine ⟨_, rfl, hne (by decide) hn, Numeral.isDigit_padded _ _, ?_⟩
    rw [nanoOfDigits_padded (by decide) (by decide) hn]
    omega
  · split
    · next hsix =>
      have hn : nano.val / 1000 < 10 ^ 6 := by omega
      refine ⟨_, rfl, hne (by decide) hn, Numeral.isDigit_padded _ _, ?_⟩
      rw [nanoOfDigits_padded (by decide) (by decide) hn]
      omega
    · have hn : nano.val < 10 ^ 9 := by omega
      refine ⟨_, rfl, hne (by decide) hn, Numeral.isDigit_padded _ _, ?_⟩
      rw [nanoOfDigits_padded (by decide) (by decide) hn]
      omega

private theorem optional_fraction {ε : Type} (nano : Fin 1000000000) {rest : List Char}
    (hdigit : Stops Char.isDigit rest) (hpoint : Stops (· == '.') rest) :
    ∃ o : Option (List Char), (optional (do char '.'; digits) : Scanner ε _)
      (fractionText nano ++ rest) = .found o rest ∧ nanoOfDigits (o.getD []) = nano := by
  by_cases h : nano.val = 0
  · refine ⟨none, ?_, ?_⟩
    · rw [fractionText, if_pos h, List.nil_append]
      exact optional_missed (bind_missed (char_missed hpoint))
    · rw [Option.getD_none, h]
      rfl
  · obtain ⟨ds, htext, hne, hds, hnano⟩ := fractionText_eq nano h
    refine ⟨some ds, ?_, hnano⟩
    rw [htext, List.cons_append]
    apply optional_found
    rw [bind_found (char_cons '.' _)]
    exact digits_append hne hds hdigit

private theorem scanSecond_append {ε : Type} (c : Clock) {rest : List Char}
    (hdigit : Stops Char.isDigit rest) (hpoint : Stops (· == '.') rest) :
    (scanSecond : Scanner ε (Nat × Nat))
      (':' :: (Numeral.padded 2 c.second ++ (fractionText c.nano ++ rest))) =
        .found (c.second.val, c.nano.val) rest := by
  obtain ⟨o, hfraction, hnano⟩ := optional_fraction (ε := ε) c.nano hdigit hpoint
  have hlt := c.second.isLt
  unfold scanSecond
  rw [bind_found (char_cons ':' _), bind_found (exactlyOf_padded _ (by decide) (by omega)),
    bind_found hfraction, pure_apply, Numeral.value_padded, hnano]

/-- A time of day is read back from its text. -/
theorem scan_text {ε : Type} (c : Clock) {rest : List Char} (hdigit : Stops Char.isDigit rest)
    (hpoint : Stops (· == '.') rest) :
    (scan : Scanner ε Clock) (c.text ++ rest) = .found c rest := by
  have hhour := c.hour.isLt
  have hminute := c.minute.isLt
  have hparts : ofParts? c.hour c.minute c.second c.nano = some c := by
    simp only [ofParts?, c.hour.isLt, c.minute.isLt, c.second.isLt, c.nano.isLt, and_self,
      dite_true]
  unfold scan text
  simp only [List.append_assoc, List.cons_append]
  rw [bind_found (exactlyOf_padded _ (by decide) (by omega)), bind_found (char_cons ':' _),
    bind_found (exactlyOf_padded _ (by decide) (by omega)),
    bind_found (optional_found (scanSecond_append c hdigit hpoint))]
  simp only [Option.getD_some, Numeral.value_padded, hparts]
  exact ofOption_some c rest

/-- A time of day is made of the characters of times. -/
theorem within_scan {ε : Type} : Within isTimeChar (scan : Scanner ε Clock) := by
  have hdigits : Within isTimeChar (digits : Scanner ε (List Char)) :=
    .run1 isTimeChar_of_isDigit
  have htwo : Within isTimeChar (exactlyOf Char.isDigit 2 : Scanner ε (List Char)) :=
    .exactlyOf isTimeChar_of_isDigit
  have hsecond : Within isTimeChar (scanSecond : Scanner ε (Nat × Nat)) :=
    .bind (.char (by decide)) fun _ ↦ .bind htwo fun _ ↦
      .bind (.optional (.bind (.char (by decide)) fun _ ↦ hdigits)) fun _ ↦ .pure _
  exact .bind htwo fun _ ↦ .bind (.char (by decide)) fun _ ↦ .bind htwo fun _ ↦
    .bind (.optional hsecond) fun _ ↦ .ofOption _

end Clock

namespace Date

/-- The year is written with four digits and no sign. -/
def IsShort (d : Date) : Prop := 0 ≤ d.year ∧ d.year ≤ 9999

instance (d : Date) : Decidable d.IsShort := inferInstanceAs (Decidable (_ ∧ _))

/-- A date of four digits begins with a digit. -/
theorem stops_text {p : Char → Bool} (d : Date) (h : d.IsShort)
    (hp : ∀ c, c.isDigit = true → p c = false) (rest : List Char) : Stops p (d.text ++ rest) := by
  unfold text yearText
  rw [if_pos ⟨h.1, h.2⟩]
  simp only [List.append_assoc, List.cons_append]
  exact stops_padded hp _

/-- A date of four digits is read back from its text. -/
theorem scan_text {ε : Type} (d : Date) (h : d.IsShort) (rest : List Char) :
    (scan : Scanner ε Date) (d.text ++ rest) = .found d rest := by
  obtain ⟨hmonth, hmonth', hday, hday'⟩ := d.onCalendar
  have hthirty : d.day ≤ 31 := by
    unfold daysInMonth at hday'
    split at hday'
    · split at hday' <;> omega
    · split at hday' <;> omega
  have hyear : ((d.year.natAbs : Nat) : Int) = d.year := Int.natAbs_of_nonneg h.1
  have hlt := h.2
  unfold scan text yearText
  rw [if_pos ⟨h.1, h.2⟩]
  simp only [List.append_assoc, List.cons_append]
  rw [bind_found (exactlyOf_padded _ (by decide) (by omega)), bind_found (char_cons '-' _),
    bind_found (exactlyOf_padded _ (by decide) (by omega)), bind_found (char_cons '-' _),
    bind_found (exactlyOf_padded _ (by decide) (by omega))]
  simp only [Numeral.value_padded, hyear, ofYearMonthDay?, d.onCalendar, dite_true]
  exact ofOption_some d rest

/-- A date that is read has four digits and a hyphen behind them. -/
theorem exists_of_scan {ε : Type} {s rest : List Char} {d : Date}
    (h : (scan : Scanner ε Date) s = .found d rest) :
    d.IsShort ∧ ∃ y mid, s = y ++ '-' :: mid ∧ y.length = 4 ∧ ∀ c ∈ y, c.isDigit = true := by
  unfold scan at h
  obtain ⟨y, mid, hy, h⟩ := bind_eq_found.mp h
  obtain ⟨_, mid, hhyphen, h⟩ := bind_eq_found.mp h
  obtain ⟨m, _, _, h⟩ := bind_eq_found.mp h
  obtain ⟨_, _, _, h⟩ := bind_eq_found.mp h
  obtain ⟨dd, _, _, h⟩ := bind_eq_found.mp h
  obtain ⟨hdate, -⟩ := ofOption_eq_found.mp h
  obtain ⟨rfl, hlength, hdigit⟩ := exactlyOf_eq_found.mp hy
  obtain rfl := char_eq_found.mp hhyphen
  refine ⟨?_, y, mid, rfl, hlength, hdigit⟩
  have hlt := Numeral.value_lt y hdigit
  rw [hlength] at hlt
  unfold ofYearMonthDay? at hdate
  split at hdate
  · cases hdate
    constructor <;> simp only <;> omega
  · cases hdate

/-- A date is made of the characters of times. -/
theorem within_scan {ε : Type} : Within isTimeChar (scan : Scanner ε Date) := by
  have hdigits {n : Nat} : Within isTimeChar (exactlyOf Char.isDigit n : Scanner ε (List Char)) :=
    .exactlyOf isTimeChar_of_isDigit
  exact .bind hdigits fun _ ↦ .bind (.char (by decide)) fun _ ↦ .bind hdigits fun _ ↦
    .bind (.char (by decide)) fun _ ↦ .bind hdigits fun _ ↦ .ofOption _

/-- No date starts where no hyphen follows its front within what may stand in times. -/
theorem scan_missed {ε : Type} {s : List Char} (h : '-' ∉ (s.takeWhile isTimeChar).tail) :
    (scan : Scanner ε Date) s = .missed := by
  apply within_scan.eq_missed
  intro d rest hd
  obtain ⟨-, y, mid, rfl, hlength, hdigit⟩ := exists_of_scan hd
  apply h
  have hy : ∀ c ∈ y, isTimeChar c = true := fun c hc ↦ isTimeChar_of_isDigit c (hdigit c hc)
  rw [List.takeWhile_append_of_pos hy, List.takeWhile_cons_of_pos (by decide)]
  cases y with
  | nil => simp at hlength
  | cons c y => simp

end Date

namespace Offset

/-- An offset is read back from its text. -/
theorem scan_text {ε : Type} (o : Offset) (rest : List Char) :
    (scan : Scanner ε Offset) (o.text ++ rest) = .found o rest := by
  obtain ⟨minutes, hday⟩ := o
  unfold scan text
  by_cases hzero : minutes = 0
  · subst hzero
    apply orElse_found
    rw [if_pos rfl, List.singleton_append, bind_found (char_cons 'Z' _)]
    rfl
  · rw [if_neg hzero]
    simp only [List.append_assoc, List.cons_append]
    rw [orElse_missed]
    · generalize hsign : (if minutes < 0 then '-' else '+') = sign
      have hmem : (sign == '+' || sign == '-') = true := by
        rw [← hsign]
        split <;> decide
      rw [bind_found (satisfy_cons _ sign _ hmem),
        bind_found (exactlyOf_padded _ (by decide) (by omega)), bind_found (char_cons ':' _),
        bind_found (exactlyOf_padded _ (by decide) (by omega))]
      simp only [Numeral.value_padded]
      have hlt : minutes.natAbs % 60 < 60 := Nat.mod_lt _ (by decide)
      have htotal : (if sign = '-'
          then -(60 * ((minutes.natAbs / 60 : Nat) : Int) + ((minutes.natAbs % 60 : Nat) : Int))
          else 60 * ((minutes.natAbs / 60 : Nat) : Int) + ((minutes.natAbs % 60 : Nat) : Int)) =
            minutes := by
        by_cases hneg : minutes < 0
        · rw [if_pos hneg] at hsign
          rw [if_pos hsign.symm]
          omega
        · rw [if_neg hneg] at hsign
          rw [if_neg (by rw [← hsign]; decide)]
          omega
      rw [if_pos hlt, htotal, ofMinutes?, dif_pos hday]
      rfl
    · apply bind_missed
      apply char_missed
      rw [stops_cons]
      split <;> decide

private theorem within_scan {ε : Type} : Within isTimeChar (scan : Scanner ε Offset) := by
  have htwo : Within isTimeChar (exactlyOf Char.isDigit 2 : Scanner ε (List Char)) :=
    .exactlyOf isTimeChar_of_isDigit
  have hsign : ∀ c, (c == '+' || c == '-') = true → isTimeChar c = true := by
    intro c hc
    rw [Bool.or_eq_true, beq_iff_eq, beq_iff_eq] at hc
    rcases hc with rfl | rfl <;> decide
  exact .orElse (.bind (.char (by decide)) fun _ ↦ .ofOption _)
    (.bind (.satisfy hsign) fun _ ↦ .bind htwo fun _ ↦ .bind (.char (by decide)) fun _ ↦
      .bind htwo fun _ ↦ .ofOption _)

/-- An offset begins with a letter or a sign. -/
theorem stops_text {p : Char → Bool} (o : Offset) (rest : List Char) (hz : p 'Z' = false)
    (hplus : p '+' = false) (hminus : p '-' = false) : Stops p (o.text ++ rest) := by
  unfold text
  split
  · simpa using hz
  · simp only [List.cons_append, stops_cons]
    split
    · exact hminus
    · exact hplus

end Offset

namespace Instant

/-- A timestamp is the instant that it is the timestamp of. -/
theorem ofTimestamp?_eq_some {t : Timestamp} {u : Instant} :
    ofTimestamp? t = some u ↔ u.toTimestamp = t := by
  unfold ofTimestamp?
  constructor
  · intro h
    split at h
    · cases h
      rfl
    · cases h
  · rintro rfl
    rw [dif_pos u.spanned]

/-- An instant with a year of four digits begins with a digit. -/
theorem stops_text {p : Char → Bool} (t : Instant) (h : t.date.IsShort)
    (hp : ∀ c, c.isDigit = true → p c = false) (rest : List Char) : Stops p (t.text ++ rest) := by
  unfold Timestamp.text
  simp only [List.append_assoc, List.cons_append]
  exact t.date.stops_text h hp _

/-- An instant with a year of four digits is read back from its text. -/
theorem scan_text {ε : Type} (t : Instant) (h : t.date.IsShort) (rest : List Char) :
    (scan : Scanner ε Instant) (t.text ++ rest) = .found t rest := by
  have hdigit : Stops Char.isDigit (t.offset.text ++ rest) :=
    t.offset.stops_text rest (by decide) (by decide) (by decide)
  have hpoint : Stops (· == '.') (t.offset.text ++ rest) :=
    t.offset.stops_text rest (by decide) (by decide) (by decide)
  unfold scan Timestamp.text
  simp only [List.append_assoc, List.cons_append]
  rw [bind_found (Date.scan_text t.date h _), bind_found (char_cons 'T' _),
    bind_found (Clock.scan_text t.clock hdigit hpoint), bind_found (Offset.scan_text t.offset rest),
    ofTimestamp?_eq_some.mpr rfl]
  exact ofOption_some t rest

/-- An instant that is read begins with its date. -/
theorem date_of_scan {ε : Type} {s rest : List Char} {t : Instant}
    (h : (scan : Scanner ε Instant) s = .found t rest) :
    ∃ mid, (Date.scan : Scanner ε Date) s = .found t.date mid := by
  unfold scan at h
  obtain ⟨d, mid, hd, h⟩ := bind_eq_found.mp h
  obtain ⟨_, _, _, h⟩ := bind_eq_found.mp h
  obtain ⟨c, _, _, h⟩ := bind_eq_found.mp h
  obtain ⟨o, _, _, h⟩ := bind_eq_found.mp h
  obtain ⟨hinstant, -⟩ := ofOption_eq_found.mp h
  rw [ofTimestamp?_eq_some.mp hinstant]
  exact ⟨mid, hd⟩

/-- An instant that is read has a year of four digits. -/
theorem isShort_of_scan {ε : Type} {s rest : List Char} {t : Instant}
    (h : (scan : Scanner ε Instant) s = .found t rest) : t.date.IsShort := by
  obtain ⟨mid, hd⟩ := date_of_scan h
  exact (Date.exists_of_scan hd).1

/-- An instant is made of the characters of times. -/
theorem within_scan {ε : Type} : Within isTimeChar (scan : Scanner ε Instant) :=
  .bind Date.within_scan fun _ ↦ .bind (.char (by decide)) fun _ ↦
    .bind Clock.within_scan fun _ ↦ .bind Offset.within_scan fun _ ↦ .ofOption _

/-- No instant starts where no hyphen follows its front within what may stand in times. -/
theorem scan_missed {ε : Type} {s : List Char} (h : '-' ∉ (s.takeWhile isTimeChar).tail) :
    (scan : Scanner ε Instant) s = .missed := bind_missed (Date.scan_missed h)

end Instant

end SensorQuery
