import SensorQuery.LogFilter.Pattern.Mode

/-!
# Escapes and classes

What a backslash makes of the characters behind it, and the classes of characters in brackets.
Classes may hold others and may be combined by operators. How deep they nest is their height.
-/

namespace SensorQuery.LogFilter.Pattern

open Scanner

/-- The height of parts in a row: that of the only one, or else one more than the highest. -/
def heightInRow : List Nat → Nat
  | [] => 0
  | [h] => h
  | hs => hs.foldl max 0 + 1

/-! ## Escapes -/

/-- What a backslash makes of the characters behind it. -/
inductive Escape where
  | literal (c : Char)
  /-- A class of characters. -/
  | category
  /-- An end of the text or of a word. -/
  | edge
deriving DecidableEq

/-- Reads an escape. A character that is no ASCII letter or digit stands for itself, but for the two
angles. Where a pattern is one of characters, the ends of words are not at hand; where it is one of
bytes, neither are the classes that hold more than ASCII. -/
def scanEscape (m : Mode) : Scanner Unit Escape := do
  char '\\'
  let c ← satisfy fun _ ↦ true
  match c with
  | 'n' => pure (.literal '\n')
  | 't' => pure (.literal '\t')
  | 'r' => pure (.literal '\r')
  | 'a' => pure (.literal '\x07')
  | 'f' => pure (.literal '\x0c')
  | 'v' => pure (.literal '\x0b')
  | 'x' => do
    let c ← m.scanCodePoint 2
    if m.unicode || c.toNat < 128 then pure (.literal c) else miss
  | 'u' => do let c ← m.scanCodePoint 4; pure (.literal c)
  | 'U' => do let c ← m.scanCodePoint 8; pure (.literal c)
  | 'A' => pure .edge
  | 'z' => pure .edge
  | c =>
    if "bB<>".toList.contains c then if m.unicode then miss else pure .edge
    else if "dsw".toList.contains c then pure .category
    else if "DSW".toList.contains c then if m.unicode then pure .category else miss
    else if c = 'p' ∨ c = 'P' then do
      m.skip
      let _ ← satisfy "CLMNPSZclmnpsz".toList.contains
      if m.unicode then pure .category else miss
    else if c.toNat < 128 ∧ !c.isAlphanum then pure (.literal c)
    else miss

/-! ## Members -/

/-- Reads a member of a class: a character, or the characters of a category. -/
def scanMember (m : Mode) : Scanner Unit Escape :=
  orElse (scanEscape m) do
    let c ← satisfy (· != '\\')
    pure (.literal c)

/-- The character may stand in a class. -/
def Mode.admits (m : Mode) (c : Char) : Bool := m.unicode || c.toNat < 128

/-- A minus sign comes next that makes a range: not the last of its class, nor one of two. -/
def Mode.beginsRange (m : Mode) : List Char → Bool
  | '-' :: s => m.peek? s != some ']' && m.peek? s != some '-'
  | _ => false

/-- Reads a member, or two in order with a minus sign between them. -/
def scanRange (m : Mode) : Scanner Unit Unit := do
  let first ← scanMember m
  m.skip
  let isRange ← fun s ↦ .found (m.beginsRange s) s
  match first, isRange with
  | .edge, _ => miss
  | .category, false => pure ()
  | .category, true => miss
  | .literal c, false => if m.admits c then pure () else miss
  | .literal low, true => do
    char '-'
    m.skip
    match ← scanMember m with
    | .literal high => if low ≤ high && m.admits low && m.admits high then pure () else miss
    | _ => miss

/-- The names of classes in brackets and colons. -/
def classNames : List String :=
  ["alnum", "alpha", "ascii", "blank", "cntrl", "digit", "graph", "lower", "print", "punct",
    "space", "upper", "word", "xdigit"]

/-- A caret that takes the complement of a class. In a pattern of bytes it would hold bytes that are
part of a longer character. -/
def scanCaret (m : Mode) : Scanner Unit Unit := do
  let caret ← optional (char '^')
  if caret.isNone || m.unicode then pure () else refuse ()

/-- Reads a named class. -/
def scanNamedClass (m : Mode) : Scanner Unit Unit := do
  exactly ['[', ':']
  let caret ← optional (char '^')
  let name ← run Char.isAlpha
  exactly [':', ']']
  if classNames.contains (String.ofList name) then
    if caret.isNone || m.unicode then pure () else refuse ()
  else miss

/-! ## Classes -/

/-- A part of a class. -/
inductive ClassToken where
  /-- A member, a range or a class, with its height. -/
  | member (height : Nat)
  /-- Combines the classes on its two sides. -/
  | operator
deriving DecidableEq

/-- The height of a class of members, maybe combined with what stands in front of an operator. -/
def heightCombined (front : Option Nat) (members : List Nat) : Nat :=
  match front with
  | none => heightInRow members
  | some h => max h (heightInRow members) + 1

/-- The height of a class. `front` is the height of what stands in front of the last operator, and
`members` are the heights of the members since. -/
def heightOfClass (front : Option Nat) (members : List Nat) : List ClassToken → Nat
  | [] => heightCombined front members + 1
  | .member h :: ts => heightOfClass front (h :: members) ts
  | .operator :: ts => heightOfClass (some (heightCombined front members)) [] ts

/-- Reads a class in brackets, in which classes nest at most `depth` deep, and gives its height.
Minus signs at its start stand for themselves, and so does a closing bracket there. -/
def scanClass (m : Mode) : (depth : Nat) → Scanner Unit Nat
  | 0 => miss
  | depth + 1 => do
    char '['
    m.skip
    scanCaret m
    m.skip
    let dashes ← many do
      char '-'
      m.skip
    let bracket ← optional (if dashes.isEmpty then char ']' else miss)
    m.skip
    let tokens ← many do
      let t ← firstOf
        [do scanNamedClass m; pure (.member 0),
          do let h ← scanClass m depth; pure (.member h),
          do exactly ['&', '&']; pure .operator,
          do exactly ['-', '-']; pure .operator,
          do exactly ['~', '~']; pure .operator,
          do
            notBefore fun c ↦ c == '[' || c == ']'
            scanRange m
            pure (.member 0)]
      m.skip
      pure t
    char ']'
    pure (heightOfClass none (List.replicate (dashes.length + bracket.toList.length) 0) tokens)

end SensorQuery.LogFilter.Pattern
