import SensorQuery.Number.Shortest
import SensorQuery.Proofs.Number.Rounding

/-!
# Shortest decimals read back

The decimal chosen for a magnitude denotes it: the ones on a grid by the test that chose them, the
exact one because a magnitude rounds to itself. Either layout spreads the digits over a whole part,
a fraction and a power of ten without changing the number they denote.
-/

-- A power of a number is computed as such, whatever algebraic structures are in scope.
attribute [local instance (2000)] instPowNat

namespace SensorQuery.Decimal

open Binary64 (decimalIndex decimalIndex_mul_pow)

/-- The decimal rounds to the magnitude `i`. -/
def Denotes (d : Decimal) (i : Nat) : Prop := decimalIndex d.digits d.exponent = i

private theorem denotes_of_onGrid? {i w p : Nat} {d : Decimal} (h : onGrid? i w p = some d) :
    d.Denotes i := by
  unfold onGrid? at h
  simp only at h
  split at h
  · next hbelow =>
    cases h
    exact hbelow.1
  · split at h
    · next habove =>
      cases h
      exact habove
    · cases h

private theorem nearest_exact (u n : Nat) :
    Binary64.nearest (u * 5 ^ n * 10 ^ (-(n : Int)).toNat) (10 ^ (-(-(n : Int))).toNat) =
      Binary64.nearest u (2 ^ n) := by
  have hzero : (-(n : Int)).toNat = 0 := by omega
  have hn : (-(-(n : Int))).toNat = n := by omega
  rw [hzero, hn, Nat.pow_zero, Nat.mul_one, show (10 : Nat) = 2 * 5 from rfl, Nat.mul_pow,
    Binary64.nearest_mul_right _ _ _ (Nat.pow_pos (by decide))]

private theorem exact_denotes (i : Nat) : (exact i).Denotes i :=
  (nearest_exact (Binary64.units i) Binary64.unitBits).trans (Binary64.nearest_units i)

/-- Zeros at the end of the digits do not count. -/
theorem stripped_denotes {fuel : Nat} {d : Decimal} {i : Nat} (h : d.Denotes i) :
    (stripped fuel d).Denotes i := by
  induction fuel generalizing d with
  | zero => exact h
  | succ fuel ih =>
    rw [stripped]
    split
    · next hzero =>
      apply ih
      have hdigits : d.digits / 10 * 10 ^ 1 = d.digits := by omega
      have hmul := decimalIndex_mul_pow (d.digits / 10) 1 d.exponent
      rw [hdigits] at hmul
      exact hmul.symm.trans h
    · exact h

/-- The shortest decimal of a magnitude denotes it. -/
theorem shortest_denotes (i : Nat) : (shortest i).Denotes i := by
  unfold shortest
  apply stripped_denotes
  generalize hfound : (List.range 17).findSome? _ = found
  cases found with
  | none => exact exact_denotes i
  | some d =>
    obtain ⟨n, -, hn⟩ := List.exists_of_findSome?_eq_some hfound
    exact denotes_of_onGrid? hn

/-! ### Layouts -/

/-- A fraction as it is written behind the whole part. -/
def fractionText (fraction : List Char) : List Char :=
  if fraction = [] then [] else '.' :: fraction

/-- A fraction as a part of a numeral, which is absent where there are no digits. -/
def fractionPart (fraction : List Char) : Option (List Char) :=
  if fraction = [] then none else some fraction

/-- The digits of a fraction are written unless there are none. -/
theorem mem_fractionPart {fraction ds : List Char} :
    ds ∈ fractionPart fraction ↔ fraction ≠ [] ∧ ds = fraction := by
  unfold fractionPart
  split
  · next h => simp [h]
  · next h => simp [h, eq_comm]

/-- A fraction that is left out has no digits. -/
theorem fractionPart_getD (fraction : List Char) : (fractionPart fraction).getD [] = fraction := by
  unfold fractionPart
  split
  · next h => rw [h, Option.getD_none]
  · rw [Option.getD_some]

/-- A fraction is written behind a point, or left out. -/
theorem fractionPart_text (fraction : List Char) :
    ((fractionPart fraction).map ('.' :: ·)).getD [] = fractionText fraction := by
  unfold fractionPart fractionText
  split <;> rfl

/-- The positional layout is this whole part and this fraction, which together denote the number;
only an integral number has no fraction of its own, and the tail in its place. -/
structure LaidOut (d : Decimal) (whole fraction : List Char) : Prop where
  whole_ne_nil : whole ≠ []
  whole_digits : ∀ c ∈ whole, c.isDigit = true
  fraction_digits : ∀ c ∈ fraction, c.isDigit = true
  text_eq : ∀ tail, d.positional tail = whole ++ if fraction = [] then tail else '.' :: fraction
  index_eq : decimalIndex (Numeral.value (whole ++ fraction)) (-fraction.length) =
    decimalIndex d.digits d.exponent

private theorem isDigit_of_mem_zeros {n : Nat} {c : Char} (hc : c ∈ List.replicate n '0') :
    c.isDigit = true := by
  rw [List.eq_of_mem_replicate hc]
  decide

-- An integral number is its digits and as many zeros as the exponent says.
private theorem laidOut_integral {d : Decimal} (h : 0 ≤ d.exponent) :
    d.LaidOut (Nat.toDigits 10 d.digits ++ List.replicate d.exponent.toNat '0') [] where
  whole_ne_nil := by simp [Nat.toDigits_ne_nil]
  whole_digits := by
    intro c hc
    rcases List.mem_append.mp hc with hc | hc
    · exact Numeral.isDigit_toDigits _ c hc
    · exact isDigit_of_mem_zeros hc
  fraction_digits := by simp
  text_eq := by
    intro tail
    simp only [positional, ge_iff_le, h, ite_true]
  index_eq := by
    have hmul := decimalIndex_mul_pow d.digits d.exponent.toNat 0
    rw [List.append_nil, Numeral.value_append_zeros, Numeral.value_toDigits, Nat.mul_comm]
    rw [show (0 : Int) + d.exponent.toNat = d.exponent by omega] at hmul
    exact hmul

-- The point falls between the digits, with `p` of them in front.
private theorem laidOut_inside {d : Decimal} {p : Nat} (hexponent : d.exponent < 0) (hp : 0 < p)
    (hpoint : (Nat.toDigits 10 d.digits).length + d.exponent = p) :
    d.LaidOut ((Nat.toDigits 10 d.digits).take p) ((Nat.toDigits 10 d.digits).drop p) where
  whole_ne_nil := by
    rw [ne_eq, List.take_eq_nil_iff]
    simp only [Nat.toDigits_ne_nil, or_false]
    omega
  whole_digits c hc := Numeral.isDigit_toDigits _ c (List.mem_of_mem_take hc)
  fraction_digits c hc := Numeral.isDigit_toDigits _ c (List.mem_of_mem_drop hc)
  text_eq := by
    intro tail
    have hdrop : (Nat.toDigits 10 d.digits).drop p ≠ [] := by
      rw [ne_eq, List.drop_eq_nil_iff]
      omega
    have hnot : ¬ 0 ≤ d.exponent := by omega
    have hpos : (0 : Int) < p := by omega
    simp only [positional, ge_iff_le, hnot, ite_false, gt_iff_lt, hpoint, hpos, ite_true,
      Int.toNat_natCast, hdrop]
  index_eq := by
    rw [List.take_append_drop, Numeral.value_toDigits]
    congr 1
    rw [List.length_drop]
    omega

-- The point falls in front of the digits, with `z` zeros between.
private theorem laidOut_below {d : Decimal} {z : Nat} (hexponent : d.exponent < 0)
    (hpoint : (Nat.toDigits 10 d.digits).length + d.exponent = -z) :
    d.LaidOut ['0'] (List.replicate z '0' ++ Nat.toDigits 10 d.digits) where
  whole_ne_nil := by simp
  whole_digits := by simp
  fraction_digits := by
    intro c hc
    rcases List.mem_append.mp hc with hc | hc
    · exact isDigit_of_mem_zeros hc
    · exact Numeral.isDigit_toDigits _ c hc
  text_eq := by
    intro tail
    have hfraction : List.replicate z '0' ++ Nat.toDigits 10 d.digits ≠ [] := by
      simp [Nat.toDigits_ne_nil]
    have hnot : ¬ 0 ≤ d.exponent := by omega
    have hle : ¬ (0 : Int) < -z := by omega
    simp only [positional, ge_iff_le, hnot, ite_false, gt_iff_lt, hpoint, hle, Int.neg_neg,
      Int.toNat_natCast, hfraction]
    rfl
  index_eq := by
    have hzeros := Numeral.value_zeros_append (z + 1) (Nat.toDigits 10 d.digits)
    rw [List.replicate_succ, List.cons_append] at hzeros
    rw [List.singleton_append, hzeros, Numeral.value_toDigits]
    congr 1
    rw [List.length_append, List.length_replicate]
    omega

/-- Wherever the exponent puts the point, the positional layout has a whole part and a fraction. -/
theorem exists_laidOut (d : Decimal) : ∃ whole fraction, d.LaidOut whole fraction := by
  by_cases hexponent : 0 ≤ d.exponent
  · exact ⟨_, _, laidOut_integral hexponent⟩
  · by_cases hpoint : 0 < (Nat.toDigits 10 d.digits).length + d.exponent
    · obtain ⟨p, hp⟩ := Int.eq_ofNat_of_zero_le (Int.le_of_lt hpoint)
      exact ⟨_, _, laidOut_inside (by omega) (by omega) hp⟩
    · obtain ⟨z, hz⟩ := Int.exists_eq_neg_ofNat (Int.not_lt.mp hpoint)
      exact ⟨_, _, laidOut_below (by omega) hz⟩

/-- The layout with an exponent is one digit, a fraction and a power of ten that together denote
the number. -/
theorem scientific_eq (d : Decimal) : ∃ (whole fraction : List Char) (power : Int),
    whole ≠ [] ∧ (∀ c ∈ whole, c.isDigit = true) ∧ (∀ c ∈ fraction, c.isDigit = true) ∧
    d.scientific = whole ++ fractionText fraction ++ 'e' :: Numeral.signed power ∧
    Numeral.value (whole ++ fraction) = d.digits ∧ power - fraction.length = d.exponent := by
  have hds := Numeral.isDigit_toDigits d.digits
  have hpos : 0 < (Nat.toDigits 10 d.digits).length := Nat.length_toDigits_pos
  refine ⟨(Nat.toDigits 10 d.digits).take 1, (Nat.toDigits 10 d.digits).drop 1,
    (Nat.toDigits 10 d.digits).length + d.exponent - 1, ?_, ?_, ?_, ?_, ?_, ?_⟩
  · rw [ne_eq, List.take_eq_nil_iff]
    simp only [Nat.one_ne_zero, false_or]
    exact Nat.toDigits_ne_nil
  · exact fun c hc ↦ hds c (List.mem_of_mem_take hc)
  · exact fun c hc ↦ hds c (List.mem_of_mem_drop hc)
  · have hiff : (Nat.toDigits 10 d.digits).length = 1 ↔ (Nat.toDigits 10 d.digits).drop 1 = [] := by
      rw [List.drop_eq_nil_iff]
      omega
    simp only [scientific, Numeral.toString_int, fractionText, hiff]
  · rw [List.take_append_drop, Numeral.value_toDigits]
  · rw [List.length_drop]
    omega

end SensorQuery.Decimal
