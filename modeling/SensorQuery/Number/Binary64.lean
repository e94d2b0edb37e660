import SensorQuery.Number.Numeral

/-!
# Binary floating-point numbers

The 64-bit binary floating-point numbers. Finite magnitudes are numbered in ascending order from
zero, so a magnitude is its index, and each is a whole number of `2 ^ -1074`, the least positive
one. A decimal numeral denotes the number nearest to it, of two equally near ones that with the
even index.
-/

-- A power of a number is computed as such, whatever algebraic structures are in scope.
attribute [local instance (2000)] instPowNat

namespace SensorQuery

namespace Binary64

/-- The binary digits of a magnitude behind the first. -/
def fractionBits : Nat := 52

/-- The power of two that one is in units of the least positive magnitude. -/
def unitBits : Nat := 1074

/-- How many finite magnitudes there are. -/
def magnitudes : Nat := 2047 * 2 ^ fractionBits

/-- The magnitude with index `i` in units of `2 ^ -1074`. -/
def units (i : Nat) : Nat :=
  if i < 2 ^ fractionBits then i
  else (2 ^ fractionBits + i % 2 ^ fractionBits) * 2 ^ (i / 2 ^ fractionBits - 1)

/-- The integer nearest to `num / den`, of two the even one. -/
def roundDiv (num den : Nat) : Nat :=
  let q := num / den
  match compare (2 * (num % den)) den with
  | .lt => q
  | .gt => q + 1
  | .eq => if q % 2 = 0 then q else q + 1

/-- The index of the magnitude nearest to `num / den`, as if magnitudes went on without end. -/
def nearest (num den : Nat) : Nat :=
  let scaled := num * 2 ^ unitBits
  let k := (scaled / den).log2 - fractionBits
  k * 2 ^ fractionBits + roundDiv scaled (den * 2 ^ k)

end Binary64

/-- A 64-bit binary floating-point number; its magnitude is given by its index. -/
inductive Binary64 where
  | nan
  | infinite (negative : Bool)
  | finite (negative : Bool) (index : Fin Binary64.magnitudes)
deriving DecidableEq

namespace Binary64

/-- The magnitude with this index, or infinity beyond the last. -/
def ofIndex (negative : Bool) (i : Nat) : Binary64 :=
  if h : i < magnitudes then .finite negative ⟨i, h⟩ else .infinite negative

/-- Positive zero. -/
def zero : Binary64 := .finite false ⟨0, by decide⟩

/-- The index of the magnitude that `m * 10 ^ e` denotes. -/
def decimalIndex (m : Nat) (e : Int) : Nat :=
  nearest (m * 10 ^ e.toNat) (10 ^ (-e).toNat)

/-- The number that `m * 10 ^ e` denotes. Numerals beyond the range on either side are answered
from their number of digits alone. -/
def ofDecimal (negative : Bool) (m : Nat) (e : Int) : Binary64 :=
  let size := (Nat.toDigits 10 m).length + e
  if m = 0 ∨ size < -400 then ofIndex negative 0
  else if 400 < size then .infinite negative
  else ofIndex negative (decimalIndex m e)

/-- Numeric equality: the zeros are equal, and what is no number equals nothing. -/
def same : Binary64 → Binary64 → Bool
  | .finite n i, .finite m j => i = j ∧ (n = m ∨ i.val = 0)
  | .infinite n, .infinite m => n = m
  | _, _ => false

/-- The number is zero, of either sign. -/
def isZero : Binary64 → Bool
  | .finite _ i => i.val = 0
  | _ => false

/-- The number lies above zero. -/
def isPositive : Binary64 → Bool
  | .finite negative i => !negative && i.val ≠ 0
  | .infinite negative => !negative
  | .nan => false

/-- The number is neither infinite nor `nan`. -/
def isFinite : Binary64 → Bool
  | .finite _ _ => true
  | _ => false

/-- The integer part, toward zero; there is none without a finite value. -/
def wholePart? : Binary64 → Option Int
  | .nan => some 0
  | .infinite _ => none
  | .finite negative i =>
    let n : Int := units i / 2 ^ unitBits
    some (if negative then -n else n)

/-- The fractional part times `10 ^ 9`, rounded to a floating-point number and then to an integer,
a half away from zero. -/
def nanoPart : Binary64 → Int
  | .finite negative i =>
    let product := units (nearest (units i % 2 ^ unitBits * 1000000000) (2 ^ unitBits))
    let n : Int := (2 * product + 2 ^ unitBits) / 2 ^ (unitBits + 1)
    if negative then -n else n
  | _ => 0

end Binary64

end SensorQuery
