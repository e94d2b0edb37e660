import SensorQuery.Number.Numeral
import SensorQuery.Proofs.Scanner

/-!
# Numerals read back

The digits of a number denote it, with leading zeros or without, and a machine integer read from
its own digits is itself.
-/

-- A power of a number is computed as such, whatever algebraic structures are in scope.
attribute [local instance (2000)] instPowNat

namespace SensorQuery.Numeral

private theorem value_append (ds es : List Char) :
    value (ds ++ es) = 10 ^ es.length * value ds + value es := by
  unfold value
  rw [Nat.ofDigitChars_append, Nat.ofDigitChars_eq_ofDigitChars_zero]

private theorem value_replicate_zero (n : Nat) : value (List.replicate n '0') = 0 := by
  simp [value, Nat.ofDigitChars_replicate_zero]

/-- Zeros behind the digits multiply by powers of ten. -/
theorem value_append_zeros (ds : List Char) (n : Nat) :
    value (ds ++ List.replicate n '0') = 10 ^ n * value ds := by
  rw [value_append, List.length_replicate, value_replicate_zero, Nat.add_zero]

/-- Zeros in front of the digits do not count. -/
theorem value_zeros_append (n : Nat) (ds : List Char) :
    value (List.replicate n '0' ++ ds) = value ds := by
  rw [value_append, value_replicate_zero, Nat.mul_zero, Nat.zero_add]

private theorem value_singleton (c : Char) : value [c] = c.toNat - '0'.toNat := by
  simp [value, Nat.ofDigitChars_cons]

private theorem digit_lt (c : Char) (h : c.isDigit = true) : c.toNat - '0'.toNat < 10 := by
  simp only [Char.isDigit, Bool.and_eq_true, decide_eq_true_eq] at h
  have hle : c.toNat ≤ 57 := by
    have := UInt32.le_iff_toNat_le.mp h.2
    simpa using this
  have hzero : '0'.toNat = 48 := rfl
  omega

/-- As many digits denote less than that power of ten. -/
theorem value_lt (ds : List Char) (h : ∀ c ∈ ds, c.isDigit = true) :
    value ds < 10 ^ ds.length := by
  induction ds with
  | nil => simp [value]
  | cons c ds ih =>
    have hc := digit_lt c (h c List.mem_cons_self)
    have hds := ih fun d hd ↦ h d (List.mem_cons_of_mem c hd)
    have happ : value (c :: ds) = 10 ^ ds.length * (c.toNat - '0'.toNat) + value ds := by
      rw [← List.singleton_append, value_append, value_singleton]
    calc value (c :: ds)
        = 10 ^ ds.length * (c.toNat - '0'.toNat) + value ds := happ
      _ < 10 ^ ds.length * (c.toNat - '0'.toNat) + 10 ^ ds.length := by omega
      _ = 10 ^ ds.length * (c.toNat - '0'.toNat + 1) := by rw [Nat.mul_add, Nat.mul_one]
      _ ≤ 10 ^ ds.length * 10 := Nat.mul_le_mul_left _ (by omega)
      _ = 10 ^ (c :: ds).length := by rw [List.length_cons, Nat.pow_succ]

/-- The digits of a number denote it. -/
@[simp] theorem value_toDigits (n : Nat) : value (Nat.toDigits 10 n) = n :=
  Nat.ofDigitChars_ten_toDigits

/-- A number is written in digits. -/
theorem isDigit_toDigits (n : Nat) : ∀ c ∈ Nat.toDigits 10 n, c.isDigit = true :=
  fun _ hc ↦ Nat.isDigit_of_mem_toDigits (by decide) (by decide) hc

/-- A number below a power of ten has no more digits than that. -/
theorem length_toDigits_le {n k : Nat} (hk : 0 < k) (h : n < 10 ^ k) :
    (Nat.toDigits 10 n).length ≤ k := (Nat.length_toDigits_le_iff (by decide) hk).mpr h

/-- Leading zeros do not count. -/
@[simp] theorem value_padded (width n : Nat) : value (padded width n) = n := by
  unfold padded
  rw [value_zeros_append, value_toDigits]

/-- A padded numeral is made of digits. -/
theorem isDigit_padded (width n : Nat) : ∀ c ∈ padded width n, c.isDigit = true := by
  intro c hc
  rcases List.mem_append.mp hc with hc | hc
  · rw [List.eq_of_mem_replicate hc]
    decide
  · exact isDigit_toDigits n c hc

/-- A number that fits the width is padded to the width. -/
theorem length_padded {width n : Nat} (hw : 0 < width) (h : n < 10 ^ width) :
    (padded width n).length = width := by
  have hle := length_toDigits_le hw h
  simp only [padded, List.length_append, List.length_replicate]
  omega

/-- A 32-bit number reads back from its digits. -/
theorem uint32?_toDigits (n : UInt32) : uint32? (Nat.toDigits 10 n.toNat) = some n := by
  have hlt : n.toNat < UInt32.size := UInt32.toNat_lt_size n
  simp only [uint32?, value_toDigits, hlt, dite_true]
  rw [UInt32.ofNatLT_toNat]

/-- A 64-bit number reads back from its digits. -/
theorem uint64?_toDigits (n : UInt64) : uint64? (Nat.toDigits 10 n.toNat) = some n := by
  have hlt : n.toNat < UInt64.size := UInt64.toNat_lt_size n
  simp only [uint64?, value_toDigits, hlt, dite_true]
  rw [UInt64.ofNatLT_toNat]

/-- A signed number reads back from its sign and its digits. -/
theorem int64?_toDigits (n : Int64) :
    int64? (decide (n.toInt < 0)) (Nat.toDigits 10 n.toInt.natAbs) = some n := by
  have hle := Int64.le_toInt n
  have hlt := Int64.toInt_lt n
  have habs : (if decide (n.toInt < 0) = true then -(n.toInt.natAbs : Int)
      else (n.toInt.natAbs : Int)) = n.toInt := by
    split
    · next h => rw [decide_eq_true_eq] at h; omega
    · next h => rw [decide_eq_true_eq] at h; omega
  simp only [int64?, value_toDigits, habs]
  rw [if_pos ⟨hle, hlt⟩, Int64.ofInt_toInt]

/-- The text of an integer is its sign and its digits. -/
theorem toString_int (n : Int) : (toString n).toList = signed n := by
  cases n with
  | ofNat n =>
    have hn : ¬ Int.ofNat n < 0 := by simp
    have htext : (toString (Int.ofNat n)).toList = Nat.toDigits 10 n := by
      change (toString n).toList = _
      rw [Nat.toString_eq_ofList_toDigits, String.toList_ofList]
    rw [htext, signed, if_neg hn]
    rfl
  | negSucc n =>
    have hn : Int.negSucc n < 0 := Int.negSucc_lt_zero n
    have htext : (toString (Int.negSucc n)).toList = '-' :: Nat.toDigits 10 (n + 1) := by
      change ("-" ++ toString (n + 1)).toList = _
      rw [Nat.toString_eq_ofList_toDigits, String.toList_append]
      simp only [String.toList_ofList]
      rfl
    rw [htext, signed, if_pos hn]
    rfl

end SensorQuery.Numeral
