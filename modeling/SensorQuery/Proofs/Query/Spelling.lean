import SensorQuery.Proofs.Number.Shortest
import SensorQuery.Proofs.Query.Word
import SensorQuery.Proofs.Time.Instant

/-!
# Numbers as they are written

A spelling is read back from its characters. The text of an integer is a spelling without fraction
and power, and the text of a finite floating-point number is a spelling with one of them that
denotes the number. The characters of a spelling that may also stand in times hold no colon, and
no hyphen behind the first.
-/

namespace SensorQuery.Literal.Spelling

open Scanner
open Binary64 (decimalIndex)

/-- The parts hold digits where there must be some, and the power has its mark and sign. -/
structure WellFormed (n : Spelling) : Prop where
  whole : n.whole ≠ [] ∧ ∀ c ∈ n.whole, c.isDigit = true
  fraction : ∀ ds ∈ n.fraction, ds ≠ [] ∧ ∀ c ∈ ds, c.isDigit = true
  power : ∀ p ∈ n.power, (p.mark = 'e' ∨ p.mark = 'E') ∧ (∀ c ∈ p.sign, c = '+' ∨ c = '-') ∧
    p.digits ≠ [] ∧ ∀ c ∈ p.digits, c.isDigit = true

/-- The sign as it is written. -/
def signText (n : Spelling) : List Char := if n.negative then ['-'] else []

/-- The fraction as it is written, with its point. -/
def fractionText (n : Spelling) : List Char := (n.fraction.map ('.' :: ·)).getD []

/-- The power of ten as it is written. -/
def powerText (n : Spelling) : List Char :=
  (n.power.map fun p ↦ p.mark :: (p.sign.toList ++ p.digits)).getD []

/-- A spelling is its sign, its whole part, its fraction and its power. -/
theorem text_eq (n : Spelling) :
    n.text = n.signText ++ (n.whole ++ (n.fractionText ++ n.powerText)) := by
  simp [text, signText, fractionText, powerText]

private theorem scanPower_append {ε : Type} {p : Power} (hmark : p.mark = 'e' ∨ p.mark = 'E')
    (hsign : ∀ c ∈ p.sign, c = '+' ∨ c = '-') (hne : p.digits ≠ [])
    (hdigits : ∀ c ∈ p.digits, c.isDigit = true) {rest : List Char} (h : Stops Char.isDigit rest) :
    (scanPower : Scanner ε Power) (p.mark :: (p.sign.toList ++ (p.digits ++ rest))) =
      .found p rest := by
  obtain ⟨mark, sign, ds⟩ := p
  have hmark' : (mark == 'e' || mark == 'E') = true := by simpa using hmark
  have hoptional : (optional (satisfy fun c ↦ c == '+' || c == '-') : Scanner ε _)
      (sign.toList ++ (ds ++ rest)) = .found sign (ds ++ rest) := by
    cases sign with
    | some c =>
      have hc : (c == '+' || c == '-') = true := by simpa using hsign c rfl
      exact optional_found (satisfy_cons _ c _ hc)
    | none =>
      apply optional_missed
      apply satisfy_missed
      cases ds with
      | nil => exact absurd rfl hne
      | cons d ds =>
        have hd : d.isDigit = true := hdigits d List.mem_cons_self
        rw [Option.toList_none, List.nil_append, List.cons_append, stops_cons]
        cases hsign : (d == '+' || d == '-') with
        | false => rfl
        | true =>
          rw [Bool.or_eq_true, beq_iff_eq, beq_iff_eq] at hsign
          rcases hsign with rfl | rfl <;> simp at hd
  unfold scanPower
  rw [bind_found (satisfy_cons _ mark _ hmark'), bind_found hoptional,
    bind_found (digits_append hne hdigits h)]
  rfl

private theorem optional_scanPower {ε : Type} {n : Spelling} (hn : n.WellFormed) {rest : List Char}
    (h : Stops RawStep.isNameChar rest) :
    (optional scanPower : Scanner ε _) (n.powerText ++ rest) = .found n.power rest := by
  unfold powerText
  cases hpower : n.power with
  | none =>
    apply optional_missed
    apply bind_missed
    apply satisfy_missed
    apply h.mono
    intro c hc
    rw [Bool.or_eq_true, beq_iff_eq, beq_iff_eq] at hc
    rcases hc with rfl | rfl <;> decide
  | some p =>
    obtain ⟨hmark, hsign, hne, hdigits⟩ := hn.power p hpower
    apply optional_found
    rw [Option.map_some, Option.getD_some, List.cons_append, List.append_assoc]
    exact scanPower_append hmark hsign hne hdigits (h.mono RawStep.isNameChar_of_isDigit)

private theorem stops_powerText {n : Spelling} (hn : n.WellFormed) {p : Char → Bool}
    (he : p 'e' = false) (hE : p 'E' = false) {rest : List Char} (h : Stops p rest) :
    Stops p (n.powerText ++ rest) := by
  unfold powerText
  cases hpower : n.power with
  | none => exact h
  | some power =>
    rw [Option.map_some, Option.getD_some, List.cons_append, stops_cons]
    rcases (hn.power power hpower).1 with hmark | hmark <;> rw [hmark] <;> assumption

private theorem optional_fraction {ε : Type} {n : Spelling} (hn : n.WellFormed) {rest : List Char}
    (h : Stops RawStep.isNameChar rest) :
    (optional (do char '.'; digits) : Scanner ε _) (n.fractionText ++ (n.powerText ++ rest)) =
      .found n.fraction (n.powerText ++ rest) := by
  unfold fractionText
  cases hfraction : n.fraction with
  | none =>
    apply optional_missed
    apply bind_missed
    apply char_missed
    apply stops_powerText hn (by decide) (by decide)
    apply h.mono
    intro c hc
    rw [beq_iff_eq] at hc
    rw [hc]
    decide
  | some ds =>
    obtain ⟨hne, hds⟩ := hn.fraction ds hfraction
    apply optional_found
    rw [Option.map_some, Option.getD_some, List.cons_append, bind_found (char_cons '.' _)]
    exact digits_append hne hds (stops_powerText hn (by decide) (by decide)
      (h.mono RawStep.isNameChar_of_isDigit))

private theorem exists_digit {n : Spelling} (hn : n.WellFormed) (s : List Char) :
    ∃ c t, n.whole ++ s = c :: t ∧ c.isDigit = true := by
  obtain ⟨hne, hwhole⟩ := hn.whole
  cases hw : n.whole with
  | nil => exact absurd hw hne
  | cons c w =>
    rw [hw] at hwhole
    exact ⟨c, w ++ s, rfl, hwhole c List.mem_cons_self⟩

private theorem optional_sign {ε : Type} {n : Spelling} (hn : n.WellFormed) (s : List Char) :
    (optional (char '-') : Scanner ε _) (n.signText ++ (n.whole ++ s)) =
      .found (if n.negative then some () else none) (n.whole ++ s) := by
  unfold signText
  cases n.negative with
  | true => exact optional_found (char_cons '-' _)
  | false =>
    apply optional_missed
    apply char_missed
    obtain ⟨c, t, hct, hc⟩ := exists_digit hn s
    simp only [Bool.false_eq_true, ite_false, List.nil_append]
    rw [hct, stops_cons, beq_eq_false_iff_ne]
    rintro rfl
    simp at hc

/-- A number is read back from the characters it was read from. -/
theorem scan_text {ε : Type} {n : Spelling} (hn : n.WellFormed) {rest : List Char}
    (h : Stops RawStep.isNameChar rest) :
    (scan : Scanner ε Spelling) (n.text ++ rest) = .found n rest := by
  have hwhole : Stops Char.isDigit (n.fractionText ++ (n.powerText ++ rest)) := by
    unfold fractionText
    cases n.fraction with
    | none =>
      exact stops_powerText hn (by decide) (by decide) (h.mono RawStep.isNameChar_of_isDigit)
    | some ds => rw [Option.map_some, Option.getD_some, List.cons_append, stops_cons]; decide
  unfold scan
  rw [text_eq]
  simp only [List.append_assoc]
  rw [bind_found (optional_sign hn _), bind_found (digits_append hn.whole.1 hn.whole.2 hwhole),
    bind_found (optional_fraction hn h), bind_found (optional_scanPower hn h),
    bind_found (notBefore_of_stops h)]
  obtain ⟨negative, whole, fraction, power⟩ := n
  cases negative <;> rfl

/-- No number starts where there is no digit, apart from a sign. -/
theorem scan_missed {ε : Type} {s : List Char} (hdigit : Stops Char.isDigit s)
    (hminus : ∀ t, s = '-' :: t → Stops Char.isDigit t) :
    (scan : Scanner ε Spelling) s = .missed := by
  unfold scan
  by_cases h : Stops (· == '-') s
  · rw [bind_found (optional_missed (char_missed h))]
    exact bind_missed (run1_missed hdigit)
  · cases s with
    | nil => simp at h
    | cons c t =>
      rw [stops_cons, Bool.not_eq_false, beq_iff_eq] at h
      subst h
      rw [bind_found (optional_found (char_cons '-' t))]
      exact bind_missed (run1_missed (hminus t rfl))

/-! ### What times see of a number -/

-- The run of characters that may stand in times ends before the power.
private theorem takeWhile_text {n : Spelling} (hn : n.WellFormed) {rest : List Char}
    (h : Stops isTimeChar rest) :
    (n.text ++ rest).takeWhile isTimeChar = n.signText ++ (n.whole ++ n.fractionText) := by
  have hall : ∀ c ∈ n.signText ++ (n.whole ++ n.fractionText), isTimeChar c = true := by
    intro c hc
    rcases List.mem_append.mp hc with hc | hc
    · unfold signText at hc
      split at hc
      · rw [List.mem_singleton] at hc
        rw [hc]
        decide
      · simp at hc
    rcases List.mem_append.mp hc with hc | hc
    · exact isTimeChar_of_isDigit c (hn.whole.2 c hc)
    · unfold fractionText at hc
      cases hfraction : n.fraction with
      | none => simp [hfraction] at hc
      | some ds =>
        rw [hfraction, Option.map_some, Option.getD_some] at hc
        rcases List.mem_cons.mp hc with rfl | hc
        · decide
        · exact isTimeChar_of_isDigit c ((hn.fraction ds hfraction).2 c hc)
  rw [text_eq]
  simp only [List.append_assoc]
  rw [← List.append_assoc n.whole, ← List.append_assoc n.signText]
  exact takeWhile_append_of_stops hall (stops_powerText hn (by decide) (by decide) h)

/-- Behind its first character a number shows digits and points to a reader of times. -/
theorem not_mem_takeWhile {n : Spelling} (hn : n.WellFormed) {rest : List Char}
    (h : Stops isTimeChar rest) {mark : Char} (hmark : mark.isDigit = false) (hpoint : mark ≠ '.') :
    mark ∉ ((n.text ++ rest).takeWhile isTimeChar).tail := by
  have hbody : mark ∉ n.whole ++ n.fractionText := by
    intro hmem
    rcases List.mem_append.mp hmem with hmem | hmem
    · have hdigit := hn.whole.2 mark hmem
      rw [hmark] at hdigit
      cases hdigit
    · unfold fractionText at hmem
      cases hfraction : n.fraction with
      | none => simp [hfraction] at hmem
      | some ds =>
        rw [hfraction, Option.map_some, Option.getD_some] at hmem
        rcases List.mem_cons.mp hmem with rfl | hmem
        · exact hpoint rfl
        · have hdigit := (hn.fraction ds hfraction).2 mark hmem
          rw [hmark] at hdigit
          cases hdigit
  rw [takeWhile_text hn h, signText]
  split
  · rw [List.singleton_append, List.tail_cons]
    exact hbody
  · rw [List.nil_append]
    exact fun hmem ↦ hbody (List.mem_of_mem_tail hmem)

/-- A number begins with a digit or a minus sign. -/
theorem stops_text {n : Spelling} (hn : n.WellFormed) {p : Char → Bool} (hminus : p '-' = false)
    (hdigit : ∀ c, c.isDigit = true → p c = false) (rest : List Char) :
    Stops p (n.text ++ rest) := by
  rw [text_eq]
  simp only [List.append_assoc]
  unfold signText
  split
  · rwa [List.singleton_append, stops_cons]
  · obtain ⟨c, t, hct, hc⟩ := exists_digit hn (n.fractionText ++ (n.powerText ++ rest))
    rw [List.nil_append, hct, stops_cons]
    exact hdigit c hc

/-! ### The numbers that are written -/

/-- An integer is written as digits behind its sign. -/
theorem exists_of_integer (i : Int64) : ∃ n : Spelling, n.WellFormed ∧
    n.text = Numeral.signed i.toInt ∧ n.integer? = some i := by
  refine ⟨⟨decide (i.toInt < 0), Nat.toDigits 10 i.toInt.natAbs, none, none⟩, ?_, ?_, ?_⟩
  · exact ⟨⟨Nat.toDigits_ne_nil, Numeral.isDigit_toDigits _⟩, by simp, by simp⟩
  · simp [text, Numeral.signed]
  · simp only [integer?, Option.isNone_none, Bool.and_self, ite_true]
    exact Numeral.int64?_toDigits i

-- A spelling that is not that of an integer, and denotes the number.
private structure Spells (n : Spelling) (text : List Char) (x : Binary64) : Prop where
  wellFormed : n.WellFormed
  text_eq : n.text = text
  integer?_eq : n.integer? = none
  double_eq : n.double = x

private theorem ofIndex_val (negative : Bool) (i : Fin Binary64.magnitudes) :
    Binary64.ofIndex negative i = .finite negative i := by
  rw [Binary64.ofIndex, dif_pos i.isLt]

private theorem double_of_fraction {n : Spelling} {fraction : List Char}
    (hfraction : n.fraction = some fraction) (hpower : n.power = none) :
    n.double = Binary64.ofIndex n.negative
      (decimalIndex (Numeral.value (n.whole ++ fraction)) (-fraction.length)) := by
  rw [double, Binary64.ofDecimal_eq, hfraction, hpower]
  simp

private theorem spells_positional (negative : Bool) {i : Fin Binary64.magnitudes}
    {whole fraction : List Char} (hne : whole ≠ []) (hwhole : ∀ c ∈ whole, c.isDigit = true)
    (hnonempty : fraction ≠ []) (hfraction : ∀ c ∈ fraction, c.isDigit = true)
    (hindex : decimalIndex (Numeral.value (whole ++ fraction)) (-fraction.length) = i) :
    Spells ⟨negative, whole, some fraction, none⟩
      (Binary64.signText negative ++ (whole ++ '.' :: fraction)) (.finite negative i) where
  wellFormed := by
    refine ⟨⟨hne, hwhole⟩, ?_, by simp⟩
    rintro ds hds
    simp only [Option.mem_def, Option.some.injEq] at hds
    rw [← hds]
    exact ⟨hnonempty, hfraction⟩
  text_eq := by simp [text, Binary64.signText]
  integer?_eq := by simp [integer?]
  double_eq := by
    rw [double_of_fraction rfl rfl, hindex]
    exact ofIndex_val negative i

private theorem exists_positional (negative : Bool) (i : Fin Binary64.magnitudes) :
    ∃ n, Spells n (Binary64.signText negative ++
      (Decimal.shortest i).positional ['.', '0']) (.finite negative i) := by
  obtain ⟨whole, fraction, hne, hwhole, hfraction, htext, hindex⟩ :=
    Decimal.exists_laidOut (Decimal.shortest i)
  rw [Decimal.shortest_denotes i] at hindex
  rw [htext]
  by_cases hnil : fraction = []
  · -- an integral number: the tail is a fraction of one zero
    subst hnil
    rw [if_pos rfl]
    refine ⟨_, spells_positional negative hne hwhole (by simp) (by simp) ?_⟩
    have hzeros := Numeral.value_append_zeros whole 1
    have hmul := Binary64.decimalIndex_mul_pow (Numeral.value whole) 1 (-1)
    rw [show (-1 : Int) + (1 : Nat) = 0 from rfl] at hmul
    rw [List.append_nil, show -(([] : List Char).length : Int) = 0 from rfl] at hindex
    rw [show List.replicate 1 '0' = ['0'] from rfl, Nat.mul_comm] at hzeros
    rw [hzeros, show -((['0'] : List Char).length : Int) = -1 from rfl, ← hindex]
    exact hmul
  · rw [if_neg hnil]
    exact ⟨_, spells_positional negative hne hwhole hnil hfraction hindex⟩

-- A signed power of ten as it is written.
private def powerOf (power : Int) : Power where
  mark := 'e'
  sign := if power < 0 then some '-' else none
  digits := Nat.toDigits 10 power.natAbs

private theorem powerOf_text (power : Int) :
    (powerOf power).sign.toList ++ (powerOf power).digits = Numeral.signed power := by
  unfold powerOf Numeral.signed
  split <;> rfl

private theorem powerOf_value (power : Int) :
    (if (powerOf power).sign = some '-' then -(Numeral.value (powerOf power).digits : Int)
      else Numeral.value (powerOf power).digits) = power := by
  unfold powerOf
  simp only [Numeral.value_toDigits]
  by_cases h : power < 0
  · rw [if_pos h, if_pos rfl]
    omega
  · rw [if_neg h, if_neg (by simp)]
    omega

private theorem powerOf_mark_sign_digits (power : Int) :
    ((powerOf power).mark = 'e' ∨ (powerOf power).mark = 'E') ∧
      (∀ c ∈ (powerOf power).sign, c = '+' ∨ c = '-') ∧
      (powerOf power).digits ≠ [] ∧ ∀ c ∈ (powerOf power).digits, c.isDigit = true := by
  refine ⟨.inl rfl, ?_, Nat.toDigits_ne_nil, Numeral.isDigit_toDigits _⟩
  intro c hc
  unfold powerOf at hc
  split at hc
  · simp only [Option.mem_def, Option.some.injEq] at hc
    exact .inr hc.symm
  · simp at hc

private theorem spells_scientific (negative : Bool) {i : Fin Binary64.magnitudes}
    {whole fraction : List Char} {power : Int} (hne : whole ≠ [])
    (hwhole : ∀ c ∈ whole, c.isDigit = true) (hfraction : ∀ c ∈ fraction, c.isDigit = true)
    (hindex : decimalIndex (Numeral.value (whole ++ fraction)) (power - fraction.length) = i) :
    Spells ⟨negative, whole, Decimal.fractionPart fraction, some (powerOf power)⟩
      (Binary64.signText negative ++
        (whole ++ Decimal.fractionText fraction ++ 'e' :: Numeral.signed power))
      (.finite negative i) where
  wellFormed := by
    refine ⟨⟨hne, hwhole⟩, ?_, ?_⟩
    · rintro ds hds
      obtain ⟨hnonempty, rfl⟩ := Decimal.mem_fractionPart.mp hds
      exact ⟨hnonempty, hfraction⟩
    · rintro p hp
      cases hp
      exact powerOf_mark_sign_digits power
  text_eq := by
    simp only [text, Decimal.fractionPart_text, Option.map_some, Option.getD_some, powerOf_text,
      Binary64.signText, List.append_assoc]
    rfl
  integer?_eq := by simp [integer?]
  double_eq := by
    rw [double, Binary64.ofDecimal_eq]
    simp only [Option.map_some, Option.getD_some, Decimal.fractionPart_getD, powerOf_value]
    rw [hindex]
    exact ofIndex_val negative i

private theorem exists_scientific (negative : Bool) (i : Fin Binary64.magnitudes) :
    ∃ n, Spells n (Binary64.signText negative ++ (Decimal.shortest i).scientific)
      (.finite negative i) := by
  obtain ⟨whole, fraction, power, hne, hwhole, hfraction, htext, hdigits, hexponent⟩ :=
    Decimal.scientific_eq (Decimal.shortest i)
  rw [htext]
  refine ⟨_, spells_scientific negative hne hwhole hfraction ?_⟩
  rw [hdigits, hexponent]
  exact Decimal.shortest_denotes i

private theorem exists_zero (negative : Bool) {i : Fin Binary64.magnitudes} (h : i.val = 0) :
    ∃ n, Spells n (Binary64.signText negative ++ ['0', '.', '0']) (.finite negative i) := by
  have hne : ['0'] ≠ [] := by simp
  have hdigit : ∀ c ∈ ['0'], c.isDigit = true := by simp
  refine ⟨_, spells_positional negative hne hdigit hne hdigit ?_⟩
  have hvalue : Numeral.value (['0'] ++ ['0']) = 0 := by decide
  rw [hvalue, Binary64.decimalIndex_zero, h]

/-- The text of a finite floating-point number is the spelling of no integer and denotes it. -/
theorem exists_of_double {x : Binary64} (h : x.isFinite = true) : ∃ n : Spelling,
    n.WellFormed ∧ n.text = x.text ∧ n.integer? = none ∧ n.double = x := by
  suffices ∃ n, Spells n x.text x by
    obtain ⟨n, hn⟩ := this
    exact ⟨n, hn.wellFormed, hn.text_eq, hn.integer?_eq, hn.double_eq⟩
  cases x with
  | nan => cases h
  | infinite negative => cases h
  | finite negative i =>
    simp only [Binary64.text, Binary64.textWith]
    by_cases hzero : i.val = 0
    · rw [if_pos hzero]
      exact exists_zero negative hzero
    · rw [if_neg hzero]
      split
      · exact exists_positional negative i
      · exact exists_scientific negative i

end SensorQuery.Literal.Spelling
