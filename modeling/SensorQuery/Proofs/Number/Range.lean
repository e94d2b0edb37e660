import SensorQuery.Proofs.Number.Rounding

/-!
# The range of finite numbers

A fraction rounds to a finite magnitude exactly if it lies below `beyond`, half way from the last
magnitude to the one that would follow it: there the even neighbour is beyond the range.
-/

-- A power of a number is computed as such, whatever algebraic structures are in scope.
attribute [local instance (2000)] instPowNat

namespace SensorQuery.Binary64

/-- The least number that rounds beyond the last finite magnitude. -/
def beyond : Nat := (2 ^ (54 : Nat) - 1) * 2 ^ (970 : Nat)

private theorem le_roundDiv (num den : Nat) : num / den ≤ roundDiv num den := by
  unfold roundDiv
  simp only
  split
  · exact Nat.le_refl _
  · exact Nat.le_succ _
  · split <;> omega

private theorem roundDiv_le (num den : Nat) : roundDiv num den ≤ num / den + 1 := by
  unfold roundDiv
  simp only
  split
  · exact Nat.le_succ _
  · exact Nat.le_refl _
  · split <;> omega

/-- A quotient rounds to less than an even number if it lies more than a half below it. -/
theorem roundDiv_lt_iff {num den n : Nat} (hden : 0 < den) (heven : n % 2 = 0) :
    roundDiv num den < n ↔ 2 * num + den < 2 * n * den := by
  have hsplit : den * (num / den) + num % den = num := Nat.div_add_mod num den
  have hrest : num % den < den := Nat.mod_lt num hden
  have hproduct : 2 * (num / den) * den = 2 * (den * (num / den)) := by
    rw [Nat.mul_assoc, Nat.mul_comm den]
  rcases Nat.lt_trichotomy (num / den + 1) n with h | h | h
  · have hround := roundDiv_le num den
    have hfar : (2 * (num / den) + 4) * den ≤ 2 * n * den := Nat.mul_le_mul_right den (by omega)
    rw [Nat.add_mul] at hfar
    omega
  · -- only a rest above the half, or the half itself behind an odd quotient, rounds up to it
    have hodd : ¬ num / den % 2 = 0 := by omega
    have hnear : 2 * n * den = 2 * (num / den) * den + 2 * den := by
      rw [← Nat.add_mul]
      congr
      omega
    have hround : roundDiv num den < n ↔ 2 * (num % den) < den := by
      unfold roundDiv
      simp only
      split
      · next hc =>
        rw [Nat.compare_eq_lt] at hc
        omega
      · next hc =>
        rw [Nat.compare_eq_gt] at hc
        omega
      · next hc =>
        rw [Nat.compare_eq_eq] at hc
        rw [if_neg hodd]
        omega
    rw [hround]
    omega
  · have hround := le_roundDiv num den
    have hfar : 2 * n * den ≤ 2 * (num / den) * den := Nat.mul_le_mul_right den (by omega)
    omega

-- Rounding on the grid of the binade of a number that is given in units of the least magnitude.
private def place (scaled den : Nat) : Nat :=
  let k := (scaled / den).log2 - fractionBits
  k * 2 ^ fractionBits + roundDiv scaled (den * 2 ^ k)

-- An index lies below the end of a binade if the number lies below the half way from its last
-- magnitude to the end.
private theorem place_lt_iff {scaled den top : Nat} (hden : 0 < den) :
    place scaled den < (top + 2) * 2 ^ fractionBits ↔
      2 * scaled < (2 ^ (54 : Nat) - 1) * (den * 2 ^ top) := by
  unfold place fractionBits
  simp only
  generalize hk : (scaled / den).log2 - 52 = k
  have hgrid : 0 < den * 2 ^ k := Nat.mul_pos hden (Nat.two_pow_pos k)
  have hupper : scaled < 2 ^ 53 * (den * 2 ^ k) := by
    have hlog : scaled / den < 2 ^ (53 + k) :=
      Nat.lt_of_lt_of_le Nat.lt_log2_self (Nat.pow_le_pow_right (by decide) (by omega))
    rw [Nat.div_lt_iff_lt_mul hden, Nat.pow_add] at hlog
    rwa [Nat.mul_comm den, ← Nat.mul_assoc]
  have hquotient : scaled / (den * 2 ^ k) < 2 ^ 53 := (Nat.div_lt_iff_lt_mul hgrid).mpr hupper
  rcases Nat.lt_trichotomy k top with h | h | h
  · have hround := roundDiv_le scaled (den * 2 ^ k)
    have hfar : den * (2 ^ k * 2) ≤ den * 2 ^ top := by
      rw [← Nat.pow_succ]
      exact Nat.mul_le_mul_left den (Nat.pow_le_pow_right (by decide) h)
    rw [← Nat.mul_assoc] at hfar
    omega
  · subst h
    have hround : roundDiv scaled (den * 2 ^ k) < 2 ^ 53 ↔
        2 * scaled + den * 2 ^ k < 2 * 2 ^ 53 * (den * 2 ^ k) := roundDiv_lt_iff hgrid (by decide)
    omega
  · have hlower : 2 ^ 52 * (den * 2 ^ k) ≤ scaled := by
      have hlog : 2 ^ (52 + k) ≤ scaled / den := by
        have hne : scaled / den ≠ 0 := by
          intro hzero
          rw [hzero, Nat.log2_zero] at hk
          omega
        exact (Nat.le_log2 hne).mp (by omega)
      rw [Nat.le_div_iff_mul_le hden, Nat.pow_add] at hlog
      rwa [Nat.mul_comm den, ← Nat.mul_assoc]
    have hquotient : 2 ^ 52 ≤ scaled / (den * 2 ^ k) := (Nat.le_div_iff_mul_le hgrid).mpr hlower
    have hround := le_roundDiv scaled (den * 2 ^ k)
    have hfar : den * (2 ^ top * 2) ≤ den * 2 ^ k := by
      rw [← Nat.pow_succ]
      exact Nat.mul_le_mul_left den (Nat.pow_le_pow_right (by decide) h)
    rw [← Nat.mul_assoc] at hfar
    omega

-- The same in other units, whose power of two is a variable so that it is never computed.
private theorem place_mul_lt_iff {num den : Nat} (hden : 0 < den) (i j : Nat) :
    place (num * 2 ^ j) den < (i + (j + 1) + 2) * 2 ^ fractionBits ↔
      num < (2 ^ (54 : Nat) - 1) * 2 ^ i * den := by
  have hleft : 2 * (num * 2 ^ j) = num * 2 ^ (j + 1) := by
    rw [Nat.pow_succ, Nat.mul_comm 2, Nat.mul_assoc]
  have hright : (2 ^ (54 : Nat) - 1) * (den * 2 ^ (i + (j + 1))) =
      (2 ^ (54 : Nat) - 1) * 2 ^ i * den * 2 ^ (j + 1) := by
    rw [Nat.pow_add, Nat.mul_assoc _ (2 ^ i), Nat.mul_comm (2 ^ i) den, Nat.mul_assoc,
      Nat.mul_assoc]
  rw [place_lt_iff hden, hleft, hright, Nat.mul_lt_mul_right (Nat.two_pow_pos (j + 1))]

/-- A fraction rounds to a finite magnitude exactly if it lies below `beyond`. -/
theorem nearest_lt_iff {num den : Nat} (hden : 0 < den) :
    nearest num den < magnitudes ↔ num < beyond * den := by
  unfold beyond
  exact place_mul_lt_iff hden 970 unitBits

private theorem isFinite_ofIndex (negative : Bool) (i : Nat) :
    (ofIndex negative i).isFinite = true ↔ i < magnitudes := by
  unfold ofIndex
  split
  · next h => simp [isFinite, h]
  · next h => simp [isFinite, h]

/-- Digits with this many of them behind the point denote a finite number exactly if they denote
less than `beyond`. -/
theorem isFinite_ofDecimal (negative : Bool) (m n : Nat) :
    (ofDecimal negative m (-n)).isFinite = true ↔ m < beyond * 10 ^ n := by
  have hwhole : (-(n : Int)).toNat = 0 := by omega
  have hfraction : (-(-(n : Int))).toNat = n := by omega
  rw [ofDecimal_eq, isFinite_ofIndex, decimalIndex, hwhole, hfraction, Nat.pow_zero, Nat.mul_one,
    nearest_lt_iff (Nat.pow_pos (by decide))]

end SensorQuery.Binary64
