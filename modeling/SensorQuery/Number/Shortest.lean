import SensorQuery.Number.Binary64

/-!
# Shortest decimals

The decimal numeral with the fewest digits that reads back to a given floating-point number, the
nearest of these, of two equally near ones the greater. A number is written with these digits in
one of two layouts: positionally only, or with a mark on integral numbers and an exponent for the
very large and the very small.
-/

-- A power of a number is computed as such, whatever algebraic structures are in scope.
attribute [local instance (2000)] instPowNat

namespace SensorQuery

/-- The number `digits * 10 ^ exponent`. -/
structure Decimal where
  digits : Nat
  exponent : Int
deriving DecidableEq

namespace Decimal

/-- The decimal without zeros at the end of its digits; `fuel` bounds their number. -/
def stripped : Nat → Decimal → Decimal
  | 0, d => d
  | fuel + 1, d =>
    if d.digits % 10 = 0 ∧ d.digits ≠ 0 then stripped fuel ⟨d.digits / 10, d.exponent + 1⟩ else d

/-- The decimal places of the finest grid that magnitudes are laid on. -/
def gridPlaces : Nat := 400

/-- Of the two neighbours of the magnitude `i` on the grid of `10 ^ (p - 400)`, the one that reads
back to `i`, if there is one. `w` is the magnitude on the finest grid, rounded down. -/
def onGrid? (i w p : Nat) : Option Decimal :=
  let c := w / 10 ^ p
  let e : Int := p - gridPlaces
  let below := Binary64.decimalIndex c e = i
  let above := Binary64.decimalIndex (c + 1) e = i
  -- twice the magnitude against the sum of the two neighbours
  let nearerBelow :=
    2 * Binary64.units i * 10 ^ gridPlaces < (2 * c + 1) * 10 ^ p * 2 ^ Binary64.unitBits
  if below ∧ (¬ above ∨ nearerBelow) then some ⟨c, e⟩
  else if above then some ⟨c + 1, e⟩
  else none

/-- The magnitude with all its digits. -/
def exact (i : Nat) : Decimal := ⟨Binary64.units i * 5 ^ Binary64.unitBits, -Binary64.unitBits⟩

/-- The shortest decimal that reads back to the magnitude `i`. No magnitude needs more than
seventeen digits; all digits would stand in if one did. -/
def shortest (i : Nat) : Decimal :=
  let w := Binary64.units i * 10 ^ gridPlaces / 2 ^ Binary64.unitBits
  let places := (Nat.toDigits 10 w).length
  let found := (List.range 17).findSome? fun n ↦ onGrid? i w (places - (n + 1))
  stripped 17 (found.getD (exact i))

/-- The digits with the point where the exponent puts it, and `tail` after an integral number. -/
def positional (tail : List Char) (d : Decimal) : List Char :=
  let ds := Nat.toDigits 10 d.digits
  let point : Int := ds.length + d.exponent
  if d.exponent ≥ 0 then ds ++ List.replicate d.exponent.toNat '0' ++ tail
  else if point > 0 then ds.take point.toNat ++ '.' :: ds.drop point.toNat
  else '0' :: '.' :: (List.replicate (-point).toNat '0' ++ ds)

/-- One digit before the point, and the power of ten. -/
def scientific (d : Decimal) : List Char :=
  let ds := Nat.toDigits 10 d.digits
  let power : Int := ds.length + d.exponent - 1
  let fraction := if ds.length = 1 then [] else '.' :: ds.drop 1
  ds.take 1 ++ fraction ++ 'e' :: (toString power).toList

end Decimal

namespace Binary64

/-- The sign in front of a negative number. -/
def signText (negative : Bool) : List Char := if negative then ['-'] else []

/-- The text with a layout for the magnitudes other than zero, and a text for zero. -/
def textWith (zero : List Char) (layout : Decimal → List Char) : Binary64 → List Char
  | .nan => ['N', 'a', 'N']
  | .infinite negative => signText negative ++ ['i', 'n', 'f']
  | .finite negative i =>
    signText negative ++ if i.val = 0 then zero else layout (Decimal.shortest i)

/-- The shortest digits without exponent: `7.5`, `3`, `0.0000001`. -/
def plainText : Binary64 → List Char := textWith ['0'] (Decimal.positional [])

/-- The shortest digits with a point or an exponent: positional from `0.0001` to below `10 ^ 16`,
where an integral number ends in `.0`, and otherwise with an exponent. -/
def text : Binary64 → List Char :=
  textWith ['0', '.', '0'] fun d ↦
    let power : Int := (Nat.toDigits 10 d.digits).length + d.exponent - 1
    if -4 ≤ power ∧ power < 16 then d.positional ['.', '0'] else d.scientific

end Binary64

end SensorQuery
