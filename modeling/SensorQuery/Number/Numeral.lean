/-!
# Decimal numerals

Whole numbers as digits, with leading zeros where a width is asked for, and readings into machine
integers that fail beyond the range.
-/

-- A power of a number is computed as such, whatever algebraic structures are in scope.
attribute [local instance (2000)] instPowNat

namespace SensorQuery.Numeral

/-- The number that the digits denote. -/
def value (ds : List Char) : Nat := Nat.ofDigitChars 10 ds 0

/-- The digits of `n`, filled with zeros on the left to at least `width`. -/
def padded (width n : Nat) : List Char :=
  let ds := Nat.toDigits 10 n
  List.replicate (width - ds.length) '0' ++ ds

/-- The 32-bit number of the digits. -/
def uint32? (ds : List Char) : Option UInt32 :=
  if h : value ds < UInt32.size then some (UInt32.ofNatLT (value ds) h) else none

/-- The 64-bit number of the digits. -/
def uint64? (ds : List Char) : Option UInt64 :=
  if h : value ds < UInt64.size then some (UInt64.ofNatLT (value ds) h) else none

/-- The signed 64-bit number of a sign and digits. -/
def int64? (negative : Bool) (ds : List Char) : Option Int64 :=
  let n : Int := if negative then -value ds else value ds
  if -2 ^ (63 : Nat) ≤ n ∧ n < 2 ^ (63 : Nat) then some (Int64.ofInt n) else none

/-- The digits of a signed number, after a minus sign if it is negative. -/
def signed (n : Int) : List Char :=
  (if n < 0 then ['-'] else []) ++ Nat.toDigits 10 n.natAbs

end SensorQuery.Numeral
