import SensorQuery.Text.Hex
import SensorQuery.Text.Utf8

/-!
# Form-encoded texts

In a form-encoded text a plus sign stands for a space and a percent sign with two hexadecimal
digits for a byte. A percent sign that two such digits do not follow stands for itself. A run of
encoded bytes must be UTF-8 of its own, since the characters around it are whole.
-/

namespace SensorQuery.Text

/-- What a character of a form-encoded text stands for. -/
def plusAsSpace (c : Char) : Char := if c = '+' then ' ' else c

/-- The characters in front of a continuation, if the bytes are UTF-8. -/
def afterBytes? (bytes : List Nat) (rest : Option (List Char)) : Option (List Char) := do
  let chars ← utf8Chars? bytes
  let more ← rest
  pure (chars ++ more)

/-- Decodes what follows the encoded bytes `pending`. -/
def formDecodeFrom (pending : List Nat) : List Char → Option (List Char)
  | [] => afterBytes? pending (some [])
  | '%' :: high :: low :: s =>
    match hexByte? high low with
    | some b => formDecodeFrom (pending ++ [b]) s
    | none => afterBytes? pending ((formDecodeFrom [] (high :: low :: s)).map ('%' :: ·))
  | c :: s => afterBytes? pending ((formDecodeFrom [] s).map (plusAsSpace c :: ·))

/-- The text that a form-encoded text stands for, if its bytes are UTF-8. -/
def formDecode? (s : List Char) : Option (List Char) := formDecodeFrom [] s

end SensorQuery.Text
