/-!
# UTF-8

Reads a list of bytes as UTF-8. A form longer than needed, a surrogate and a value beyond the last
code point are refused. Texts are also measured and cut by their bytes.
-/

namespace SensorQuery.Text

/-- A byte that continues a character: `10xxxxxx`. -/
def isContinuation (b : Nat) : Bool := 0x80 ≤ b && b < 0xC0

/-- The character of a code point, if it is at least `least` and no surrogate. -/
def scalar? (least n : Nat) : Option Char :=
  if h : n.isValidChar then
    if least ≤ n then some (Char.ofNatAux n h) else none
  else none

/-- The characters that the bytes encode. -/
def utf8Chars? : List Nat → Option (List Char)
  | [] => some []
  | b :: bs =>
    if b < 0x80 then (utf8Chars? bs).map (Char.ofNat b :: ·)
    else if 0xC0 ≤ b ∧ b < 0xE0 then
      match bs with
      | c :: bs =>
        if isContinuation c then do
          let char ← scalar? 0x80 (b % 0x20 * 0x40 + c % 0x40)
          let chars ← utf8Chars? bs
          pure (char :: chars)
        else none
      | _ => none
    else if 0xE0 ≤ b ∧ b < 0xF0 then
      match bs with
      | c :: d :: bs =>
        if isContinuation c && isContinuation d then do
          let char ← scalar? 0x800 (b % 0x10 * 0x1000 + c % 0x40 * 0x40 + d % 0x40)
          let chars ← utf8Chars? bs
          pure (char :: chars)
        else none
      | _ => none
    else if 0xF0 ≤ b ∧ b < 0xF8 then
      match bs with
      | c :: d :: e :: bs =>
        if isContinuation c && isContinuation d && isContinuation e then do
          let char ← scalar? 0x10000
            (b % 0x08 * 0x40000 + c % 0x40 * 0x1000 + d % 0x40 * 0x40 + e % 0x40)
          let chars ← utf8Chars? bs
          pure (char :: chars)
        else none
      | _ => none
    else none

/-- The number of bytes that encode the text. -/
def byteLength (s : List Char) : Nat := s.foldr (·.utf8Size + ·) 0

/-- The text cut behind its first `n` bytes, unless these end inside a character. -/
def cutBytes? : (n : Nat) → List Char → Option (List Char × List Char)
  | 0, s => some ([], s)
  | _ + 1, [] => none
  | n + 1, c :: s =>
    if c.utf8Size ≤ n + 1 then
      (cutBytes? (n + 1 - c.utf8Size) s).map fun p ↦ (c :: p.1, p.2)
    else none

end SensorQuery.Text
