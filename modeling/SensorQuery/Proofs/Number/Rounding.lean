import SensorQuery.Number.Binary64
import SensorQuery.Proofs.Number.Numeral

/-!
# Rounding to the nearest magnitude

The index that a fraction rounds to depends on its value alone, so a decimal may be written with
any number of trailing zeros. The shortcuts that `ofDecimal` takes for very long and very small
numerals agree with rounding, and a magnitude itself rounds to its own index.
-/

-- A power of a number is computed as such, whatever algebraic structures are in scope.
attribute [local instance (2000)] instPowNat

namespace SensorQuery.Binary64

private theorem compare_mul_right (a b c : Nat) (hc : 0 < c) :
    compare (a * c) (b * c) = compare a b := by
  rcases Nat.lt_trichotomy a b with h | h | h
  · rw [Nat.compare_eq_lt.mpr h, Nat.compare_eq_lt.mpr (Nat.mul_lt_mul_of_pos_right h hc)]
  · rw [h, Nat.compare_eq_eq.mpr rfl, Nat.compare_eq_eq.mpr rfl]
  · rw [Nat.compare_eq_gt.mpr h, Nat.compare_eq_gt.mpr (Nat.mul_lt_mul_of_pos_right h hc)]

private theorem roundDiv_mul_right (num den c : Nat) (hc : 0 < c) :
    roundDiv (num * c) (den * c) = roundDiv num den := by
  unfold roundDiv
  rw [Nat.mul_div_mul_right _ _ hc, Nat.mul_mod_mul_right, ← Nat.mul_assoc,
    compare_mul_right _ _ _ hc]

/-- A whole quotient is its own rounding. -/
theorem roundDiv_mul_self (q den : Nat) (h : 0 < den) : roundDiv (q * den) den = q := by
  unfold roundDiv
  rw [Nat.mul_div_cancel _ h, Nat.mul_mod_left, Nat.mul_zero, Nat.compare_eq_lt.mpr h]

-- Rounding to a magnitude in units of `1 / unit`. The unit is a variable in the laws below, so that
-- its power of two is never computed.
private def nearestIn (unit num den : Nat) : Nat :=
  let k := (num * unit / den).log2 - fractionBits
  k * 2 ^ fractionBits + roundDiv (num * unit) (den * 2 ^ k)

private theorem nearest_eq (num den : Nat) : nearest num den = nearestIn (2 ^ unitBits) num den :=
  rfl

private theorem nearestIn_mul_right (unit num den c : Nat) (hc : 0 < c) :
    nearestIn unit (num * c) (den * c) = nearestIn unit num den := by
  have hscaled : num * c * unit = num * unit * c := Nat.mul_right_comm _ _ _
  have hden (k : Nat) : den * c * 2 ^ k = den * 2 ^ k * c := Nat.mul_right_comm _ _ _
  unfold nearestIn
  simp only [hscaled, hden, Nat.mul_div_mul_right _ _ hc, roundDiv_mul_right _ _ _ hc]

/-- Rounding depends on the value of the fraction alone. -/
theorem nearest_mul_right (num den c : Nat) (hc : 0 < c) :
    nearest (num * c) (den * c) = nearest num den := by
  rw [nearest_eq, nearest_eq, nearestIn_mul_right _ _ _ _ hc]

/-- Trailing zeros move between the digits and the exponent. -/
theorem decimalIndex_mul_pow (m n : Nat) (e : Int) :
    decimalIndex (m * 10 ^ n) e = decimalIndex m (e + n) := by
  have hpos (k : Nat) : 0 < 10 ^ k := Nat.pow_pos (by decide)
  unfold decimalIndex
  by_cases he : 0 ≤ e
  · obtain ⟨a, rfl⟩ := Int.eq_ofNat_of_zero_le he
    have hleft : (-(a : Int)).toNat = 0 := by omega
    have hright : (-((a : Int) + n)).toNat = 0 := by omega
    have hsum : ((a : Int) + n).toNat = n + a := by omega
    rw [hleft, hright, hsum, Int.toNat_natCast, Nat.mul_assoc, ← Nat.pow_add]
  · have hzero : e.toNat = 0 := by omega
    rw [hzero, Nat.pow_zero, Nat.mul_one]
    by_cases hn : e + n ≤ 0
    · have hsum : (e + n).toNat = 0 := by omega
      have hden : (-e).toNat = (-(e + n)).toNat + n := by omega
      rw [hsum, hden, Nat.pow_zero, Nat.mul_one, Nat.pow_add,
        nearest_mul_right _ _ _ (hpos n)]
    · have hsum : (-(e + n)).toNat = 0 := by omega
      have hnum : n = (e + n).toNat + (-e).toNat := by omega
      have hpow : 10 ^ n = 10 ^ (e + n).toNat * 10 ^ (-e).toNat := by rw [← Nat.pow_add, ← hnum]
      have hmul := nearest_mul_right (m * 10 ^ (e + n).toNat) 1 (10 ^ (-e).toNat) (hpos _)
      rw [hsum, hpow, Nat.pow_zero, ← Nat.mul_assoc, ← hmul, Nat.one_mul]

private theorem nearestIn_eq_zero {unit num den : Nat} (h : 2 * (num * unit) < den) :
    nearestIn unit num den = 0 := by
  have hlt : num * unit < den := by omega
  unfold nearestIn
  simp only [Nat.div_eq_of_lt hlt, Nat.log2_zero, Nat.zero_sub, Nat.pow_zero, Nat.mul_one,
    Nat.zero_mul, Nat.zero_add]
  unfold roundDiv
  rw [Nat.div_eq_of_lt hlt, Nat.mod_eq_of_lt hlt, Nat.compare_eq_lt.mpr h]

private theorem nearestIn_zero (unit den : Nat) (h : 0 < den) : nearestIn unit 0 den = 0 :=
  nearestIn_eq_zero (by rwa [Nat.zero_mul, Nat.mul_zero])

private theorem two_pow_le_ten_pow (k n : Nat) (h : k ≤ 3 * n) : 2 ^ k ≤ 10 ^ n := by
  calc 2 ^ k
      ≤ 2 ^ (3 * n) := Nat.pow_le_pow_right (by decide) h
    _ = (2 ^ 3) ^ n := Nat.pow_mul 2 3 n
    _ ≤ 10 ^ n := Nat.pow_le_pow_left (by decide) n

private theorem two_mul_lt {num den k n : Nat} (hk : k + 1 ≤ 3 * n) (h : num * 10 ^ n < den) :
    2 * (num * 2 ^ k) < den := by
  have hpow := two_pow_le_ten_pow (k + 1) n hk
  calc 2 * (num * 2 ^ k)
      = num * 2 ^ (k + 1) := by rw [Nat.pow_succ, Nat.mul_comm, Nat.mul_assoc]
    _ ≤ num * 10 ^ n := Nat.mul_le_mul_left _ hpow
    _ < den := h

/-- A fraction below half the least positive magnitude rounds to zero. -/
theorem nearest_eq_zero {num den : Nat} (h : num * 10 ^ (400 : Nat) < den) :
    nearest num den = 0 := by
  rw [nearest_eq]
  exact nearestIn_eq_zero (two_mul_lt (k := unitBits) (n := 400) (by decide) h)

private theorem le_nearestIn {num den k j : Nat} (hden : 0 < den) (h : 2 ^ k * den ≤ num) :
    (k + j - fractionBits) * 2 ^ fractionBits ≤ nearestIn (2 ^ j) num den := by
  have hlarge : 2 ^ (k + j) ≤ num * 2 ^ j / den := by
    rw [Nat.le_div_iff_mul_le hden, Nat.pow_add, Nat.mul_right_comm]
    exact Nat.mul_le_mul_right _ h
  have hpos := Nat.two_pow_pos (k + j)
  have hlog : k + j ≤ (num * 2 ^ j / den).log2 := (Nat.le_log2 (by omega)).mpr hlarge
  unfold nearestIn
  exact Nat.le_trans (Nat.mul_le_mul_right _ (Nat.sub_le_sub_right hlog _)) (Nat.le_add_right _ _)

/-- A number from `10 ^ 400` on rounds beyond the last finite magnitude. -/
theorem le_nearest {num den : Nat} (hden : 0 < den) (h : 10 ^ (400 : Nat) * den ≤ num) :
    magnitudes ≤ nearest num den := by
  have hpow := two_pow_le_ten_pow 1200 400 (by decide)
  have hle := le_nearestIn hden (Nat.le_trans (Nat.mul_le_mul_right den hpow) h) (j := unitBits)
  rw [nearest_eq]
  exact Nat.le_trans (by decide) hle

/-- Zero is the magnitude with the index 0, at every exponent. -/
theorem decimalIndex_zero (e : Int) : decimalIndex 0 e = 0 := by
  unfold decimalIndex
  rw [Nat.zero_mul, nearest_eq, nearestIn_zero _ _ (Nat.pow_pos (by decide))]

private theorem lt_ten_pow (m : Nat) : m < 10 ^ (Nat.toDigits 10 m).length := by
  have h := Numeral.value_lt _ (Numeral.isDigit_toDigits m)
  rwa [Numeral.value_toDigits] at h

private theorem ten_pow_le {m : Nat} (hm : m ≠ 0) : 10 ^ ((Nat.toDigits 10 m).length - 1) ≤ m := by
  apply Nat.le_of_not_lt
  intro h
  by_cases hone : (Nat.toDigits 10 m).length = 1
  · rw [hone] at h
    omega
  · have hpos : 0 < (Nat.toDigits 10 m).length := Nat.length_toDigits_pos
    have hle := Numeral.length_toDigits_le (by omega) h
    omega

/-- The answers from the number of digits alone are what rounding would give. -/
theorem ofDecimal_eq (negative : Bool) (m : Nat) (e : Int) :
    ofDecimal negative m e = ofIndex negative (decimalIndex m e) := by
  have hpos (k : Nat) : 0 < 10 ^ k := Nat.pow_pos (by decide)
  unfold ofDecimal
  simp only
  split
  · next h =>
    by_cases hm : m = 0
    · rw [hm, decimalIndex_zero]
    · have hsize : (Nat.toDigits 10 m).length + e < -400 := h.resolve_left hm
      have hzero : e.toNat = 0 := by omega
      have hsplit : (-e).toNat = (Nat.toDigits 10 m).length + 400 +
          ((-e).toNat - ((Nat.toDigits 10 m).length + 400)) := by omega
      have hlt : m * 10 ^ (400 : Nat) < 10 ^ (-e).toNat := by
        rw [hsplit, Nat.pow_add, Nat.pow_add]
        calc m * 10 ^ (400 : Nat)
            < 10 ^ (Nat.toDigits 10 m).length * 10 ^ (400 : Nat) :=
              Nat.mul_lt_mul_of_pos_right (lt_ten_pow m) (hpos 400)
          _ ≤ _ := Nat.le_mul_of_pos_right _ (hpos _)
      unfold decimalIndex
      rw [hzero, Nat.pow_zero, Nat.mul_one, nearest_eq_zero hlt]
  · next h =>
    have hm : m ≠ 0 := fun hz ↦ h (.inl hz)
    split
    · next hbig =>
      have hle : 10 ^ (400 : Nat) * 10 ^ (-e).toNat ≤ m * 10 ^ e.toNat := by
        calc 10 ^ (400 : Nat) * 10 ^ (-e).toNat
            = 10 ^ (400 + (-e).toNat) := (Nat.pow_add _ _ _).symm
          _ ≤ 10 ^ ((Nat.toDigits 10 m).length - 1 + e.toNat) :=
              Nat.pow_le_pow_right (by decide) (by omega)
          _ = 10 ^ ((Nat.toDigits 10 m).length - 1) * 10 ^ e.toNat := Nat.pow_add _ _ _
          _ ≤ m * 10 ^ e.toNat := Nat.mul_le_mul_right _ (ten_pow_le hm)
      have hlarge := le_nearest (hpos (-e).toNat) hle
      unfold ofIndex decimalIndex
      rw [dif_neg (Nat.not_lt.mpr hlarge)]
    · rfl

private theorem nearestIn_units (unit i : Nat) (h : 0 < unit) :
    nearestIn unit (units i) unit = i := by
  unfold nearestIn
  simp only [Nat.mul_div_cancel _ h]
  by_cases hi : i < 2 ^ fractionBits
  · have hunits : units i = i := by rw [units, if_pos hi]
    have hlog : i.log2 - fractionBits = 0 := by
      by_cases hz : i = 0
      · rw [hz]; rfl
      · have := (Nat.log2_lt hz).mpr hi
        omega
    rw [hunits, hlog, Nat.zero_mul, Nat.zero_add, Nat.pow_zero, Nat.mul_one,
      roundDiv_mul_self _ _ h]
  · generalize hk : i / 2 ^ fractionBits - 1 = k
    have hpos : 0 < 2 ^ k := Nat.two_pow_pos k
    have hunits : units i = (2 ^ fractionBits + i % 2 ^ fractionBits) * 2 ^ k := by
      rw [units, if_neg hi, hk]
    have hplace : i % 2 ^ fractionBits < 2 ^ fractionBits := Nat.mod_lt _ (Nat.two_pow_pos _)
    have hne : units i ≠ 0 := by
      rw [hunits]
      exact Nat.mul_ne_zero (by omega) (Nat.ne_of_gt hpos)
    have hlog : (units i).log2 = fractionBits + k := by
      rw [Nat.log2_eq_iff hne, hunits, Nat.pow_add]
      refine ⟨Nat.mul_le_mul_right _ (by omega), ?_⟩
      rw [Nat.add_right_comm, Nat.pow_add, Nat.pow_succ]
      exact Nat.mul_lt_mul_of_pos_right (by omega) hpos
    rw [hlog, Nat.add_sub_cancel_left, hunits, Nat.mul_assoc, Nat.mul_comm (2 ^ k),
      roundDiv_mul_self _ _ (Nat.mul_pos h hpos)]
    unfold fractionBits at *
    omega

/-- A magnitude rounds to its own index. -/
theorem nearest_units (i : Nat) : nearest (units i) (2 ^ unitBits) = i := by
  rw [nearest_eq]
  exact nearestIn_units _ i (Nat.two_pow_pos unitBits)

end SensorQuery.Binary64
