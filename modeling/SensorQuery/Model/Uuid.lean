import SensorQuery.Text.Hex

/-!
# Universally unique identifiers

A UUID is 32 hexadecimal digits. It is written in lower case with hyphens, and read in either case
with hyphens, without them, in braces, or after `urn:uuid:`.
-/

namespace SensorQuery

/-- A 128-bit identifier by its hexadecimal digits. -/
structure Uuid where
  digits : List (Fin 16)
  size : digits.length = 32
deriving DecidableEq

namespace Uuid

/-- The digit in lower case. -/
def digitText (d : Fin 16) : Char :=
  if d.val < 10 then Char.ofNat ('0'.toNat + d) else Char.ofNat ('a'.toNat + (d - 10))

/-- The identifier in groups of 8, 4, 4, 4 and 12 digits. -/
def text (u : Uuid) : List Char :=
  let ds := u.digits.map digitText
  ds.take 8 ++ '-' :: (ds.drop 8).take 4 ++ '-' :: (ds.drop 12).take 4 ++ '-' ::
    (ds.drop 16).take 4 ++ '-' :: ds.drop 20

/-- The digit that a character writes. -/
def digit? (c : Char) : Option (Fin 16) :=
  match Text.hexDigit? c with
  | some n => if h : n < 16 then some ⟨n, h⟩ else none
  | none => none

/-- The identifier of 32 digits. -/
def ofDigits? (s : List Char) : Option Uuid := do
  let digits ← s.mapM digit?
  if h : digits.length = 32 then some ⟨digits, h⟩ else none

/-- The identifier of five groups with hyphens between them. -/
def ofGroups? (s : List Char) : Option Uuid :=
  if s.length = 36 ∧ [8, 13, 18, 23].all fun i ↦ s[i]? = some '-' then
    ofDigits? (s.take 8 ++ (s.drop 9).take 4 ++ (s.drop 14).take 4 ++ (s.drop 19).take 4 ++
      s.drop 24)
  else none

/-- The text between braces. -/
def inBraces? : List Char → Option (List Char)
  | '{' :: s => if s.getLast? = some '}' then some s.dropLast else none
  | _ => none

/-- The text after `urn:uuid:`, whose letters may be of either case. -/
def afterUrn? (s : List Char) : Option (List Char) :=
  let urn := "urn:uuid:".toList
  if (s.take urn.length).map Char.toLower = urn then some (s.drop urn.length) else none

/-- The identifier in any of its four forms. -/
def ofText? (s : List Char) : Option Uuid :=
  if s.length = 32 then ofDigits? s
  else ofGroups? ((inBraces? s).getD ((afterUrn? s).getD s))

end Uuid

end SensorQuery
