import SensorQuery.Scan

/-!
# Hexadecimal digits

The values of hexadecimal digits of either case, and the characters whose code points they spell.
-/

namespace SensorQuery.Text

/-- The value of a hexadecimal digit of either case. -/
def hexDigit? (c : Char) : Option Nat :=
  if '0' ≤ c ∧ c ≤ '9' then some (c.toNat - '0'.toNat)
  else if 'a' ≤ c ∧ c ≤ 'f' then some (c.toNat - 'a'.toNat + 10)
  else if 'A' ≤ c ∧ c ≤ 'F' then some (c.toNat - 'A'.toNat + 10)
  else none

/-- The byte of two hexadecimal digits. -/
def hexByte? (high low : Char) : Option Nat :=
  match hexDigit? high, hexDigit? low with
  | some a, some b => some (16 * a + b)
  | _, _ => none

/-- The number that the digits denote in a base of at most sixteen. -/
def basedValue (base : Nat) (ds : List Char) : Nat :=
  (ds.filterMap hexDigit?).foldl (fun n d ↦ base * n + d) 0

/-- The character whose code point the hexadecimal digits spell, if there is one. -/
def codePoint? (ds : List Char) : Option Char :=
  let n := basedValue 16 ds
  if n.isValidChar then some (Char.ofNat n) else none

/-- Reads the character whose code point is spelled with exactly this many hexadecimal digits. -/
def scanCodePoint {ε : Type} (width : Nat) : Scanner ε Char := do
  let ds ← Scanner.exactlyOf (fun c ↦ (hexDigit? c).isSome) width
  Scanner.ofOption (codePoint? ds)

end SensorQuery.Text
