import SensorQuery.Scan
import SensorQuery.Text.Blank
import SensorQuery.Text.Hex

/-!
# Modes of a pattern

Flags say how the rest of their group is read. Two of them matter for the form of a pattern: one
makes room for blanks and comments, and one leaves characters of all scripts for bytes.
-/

namespace SensorQuery.LogFilter.Pattern

open Scanner

/-- How a part of a pattern is read. -/
structure Mode where
  /-- Blanks stand for nothing, and neither does a number sign with the rest of its line. -/
  spaced : Bool
  /-- The pattern is one of characters. Otherwise it is one of bytes, and must not be open to bytes
  that are part of a longer character. -/
  unicode : Bool
deriving DecidableEq

namespace Mode

/-- The mode in which a pattern begins. -/
def start : Mode := ⟨false, true⟩

/-- The mode that flags make of this one: those before a minus sign are set, and those behind it
are not. -/
def withFlags (m : Mode) (flags : List Char) : Mode :=
  let on := flags.takeWhile (· != '-')
  let read flag was := on.contains flag || (was && !flags.contains flag)
  ⟨read 'x' m.spaced, read 'u' m.unicode⟩

/-- The text from the first character that is neither blank nor in a comment. -/
def afterBlanks : (inComment : Bool) → List Char → List Char
  | _, [] => []
  | true, c :: s => afterBlanks (c != '\n') s
  | false, c :: s =>
    if Text.isBlank c then afterBlanks false s
    else if c = '#' then afterBlanks true s
    else c :: s

/-- Passes over what stands for nothing. -/
def skip (m : Mode) : Scanner Unit Unit := fun s ↦
  .found () (if m.spaced then afterBlanks false s else s)

/-- The character that decides whether a minus sign in front makes a range. Blanks are passed over
here, but of a comment no more than its number sign. -/
def peek? (m : Mode) (s : List Char) : Option Char :=
  if m.spaced then
    let rest := s.dropWhile Text.isBlank
    if rest.head? = some '#' then ((rest.drop 1).dropWhile Text.isBlank).head? else rest.head?
  else s.head?

/-- Reads the character whose code point is spelled with exactly this many hexadecimal digits. -/
def scanCodePoint (m : Mode) (width : Nat) : Scanner Unit Char := do
  let ds ← (List.range width).mapM fun _ ↦ do
    m.skip
    satisfy fun c ↦ (Text.hexDigit? c).isSome
  ofOption (Text.codePoint? ds)

end Mode

end SensorQuery.LogFilter.Pattern
