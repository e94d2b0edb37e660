import SensorQuery.LogFilter.Pattern.Class
import SensorQuery.Text.Letter

/-!
# Patterns

The regular expressions that a log filter compares values with. Only their form matters here: a
pattern is cut into tokens, and the tokens must fit together. No closing brace follows an opening
one in a pattern, so an opening one outside a class has no form.
-/

namespace SensorQuery.LogFilter.Pattern

open Scanner

/-- A part of a pattern, as far as the form of the whole depends on it. -/
inductive Token where
  /-- Stands for characters, or for an end of the text. A class has a height. -/
  | item (height : Nat)
  /-- Repeats what is in front of it. -/
  | repetition
  /-- Parts alternatives. -/
  | bar
  /-- Opens a group that is read in its own mode and may have a name. -/
  | opening (mode : Mode) (name : Option (List Char))
  | closing
  /-- Says how the rest of the group is read. -/
  | flags (mode : Mode)
deriving DecidableEq

/-! ## Groups -/

/-- A character that may stand in the name of a group, at its start or behind it. -/
def isNameChar (first : Bool) (c : Char) : Bool :=
  c = '_' || (if first then Text.isAlphabetic c
    else Text.isAlphanumeric c || c = '.' || c = '[' || c = ']')

/-- Reads the name of a group up to the angle that closes it. -/
def scanName : Scanner Unit (List Char) := do
  orElse (exactly "?P<".toList) (exactly "?<".toList)
  let c ← satisfy (isNameChar true)
  let cs ← run (isNameChar false)
  char '>'
  pure (c :: cs)

/-- Reads letters that say how a pattern is read. Each stands at most once, and so does the minus
sign, which is not the last. -/
def scanFlags : Scanner Unit (List Char) := do
  char '?'
  let flags ← run fun c ↦ "imsUuRx-".toList.contains c
  if flags.Nodup ∧ flags.getLast? ≠ some '-' then pure flags else miss

/-- Reads what opens a group, or says how the rest of one is read. -/
def scanOpening (m : Mode) : Scanner Unit Token := do
  char '('
  m.skip
  firstOf
    [do
      let name ← scanName
      pure (.opening m (some name)),
    do
      let flags ← scanFlags
      char ':'
      pure (.opening (m.withFlags flags) none),
    do
      let flags ← scanFlags
      char ')'
      if flags.isEmpty then miss else pure (.flags (m.withFlags flags)),
    do
      notBefore (· == '?')
      pure (.opening m none)]

/-! ## Tokens -/

/-- Reads a token. In a pattern of bytes a dot has no form. -/
def scanToken (m : Mode) : Scanner Unit Token :=
  firstOf
    [scanOpening m,
    do
      char ')'
      pure .closing,
    do
      char '|'
      pure .bar,
    do
      let _ ← satisfy fun c ↦ c == '*' || c == '+' || c == '?'
      let _ ← optional (char '?')
      pure .repetition,
    do
      let height ← fun s ↦ scanClass m s.length s
      pure (.item height),
    do
      let _ ← scanEscape m
      pure (.item 0),
    do
      let c ← satisfy fun c ↦ c != '(' && c != '[' && c != '{' && c != '\\'
      if m.unicode || c != '.' then pure (.item 0) else miss]

/-- The modes of the groups around what follows the token, the innermost first. -/
def Token.modesAfter : Token → List Mode → List Mode
  | .opening m _, modes => m :: modes
  | .closing, modes => modes.tail
  | .flags m, modes => m :: modes.tail
  | _, modes => modes

/-- Reads at most `fuel` tokens, in the modes of the groups around them. -/
def scanTokens : (fuel : Nat) → (modes : List Mode) → Scanner Unit (List Token)
  | fuel + 1, m :: modes => do
    m.skip
    match ← optional (scanToken m) with
    | none => pure []
    | some t =>
      let ts ← scanTokens fuel (t.modesAfter (m :: modes))
      pure (t :: ts)
  | _, _ => miss

/-- The name of the group that the token opens. -/
def Token.name? : Token → Option (List Char)
  | .opening _ name => name
  | _ => none

/-! ## Fit -/

/-- What stands in a row in a pattern. -/
inductive Part where
  /-- Stands for texts, and may be repeated. -/
  | expression (height : Nat)
  | flags
deriving DecidableEq

/-- How deep the part nests. -/
def Part.height : Part → Nat
  | .expression h => h
  | .flags => 0

/-- A group as far as it has been read. -/
structure Group where
  /-- The heights of the alternatives that are complete. -/
  alternatives : List Nat
  /-- The parts of the last alternative, the last part first. -/
  parts : List Part
deriving DecidableEq

namespace Group

/-- A group of which nothing has been read. -/
def empty : Group := ⟨[], []⟩

/-- The group with one more part. -/
def push (g : Group) (p : Part) : Group := { g with parts := p :: g.parts }

/-- The height of the last alternative. -/
def lastHeight (g : Group) : Nat := heightInRow (g.parts.map Part.height)

/-- How deep the content of the group nests. -/
def height (g : Group) : Nat := heightInRow (g.lastHeight :: g.alternatives)

/-- The group with its last part repeated, which must stand for texts. -/
def repeated? (g : Group) : Option Group :=
  match g.parts with
  | .expression h :: ps => some { g with parts := .expression (h + 1) :: ps }
  | _ => none

/-- The group with a further alternative. -/
def branch (g : Group) : Group := ⟨g.lastHeight :: g.alternatives, []⟩

end Group

/-- The open groups behind a token, the innermost first, the whole pattern last. -/
def Token.step? (groups : List Group) (t : Token) : Option (List Group) :=
  match t, groups with
  | _, [] => none
  | .item h, g :: gs => some (g.push (.expression h) :: gs)
  | .repetition, g :: gs => g.repeated?.map (· :: gs)
  | .bar, g :: gs => some (g.branch :: gs)
  | .opening _ _, gs => some (.empty :: gs)
  | .closing, [_] => none
  | .closing, g :: outer :: gs => some (outer.push (.expression (g.height + 1)) :: gs)
  | .flags _, g :: gs => some (g.push .flags :: gs)

/-- A pattern nests at most this deep. -/
def heightLimit : Nat := 250

/-- The tokens fit together: groups are closed, repetitions have something to repeat, nothing nests
too deep, and no name is given twice. -/
def fit (ts : List Token) : Bool :=
  (match ts.foldlM Token.step? [.empty] with
    | some [whole] => whole.height ≤ heightLimit
    | _ => false)
  && (ts.filterMap Token.name?).Nodup

/-- The text is a pattern. -/
def isWellFormed (s : List Char) : Bool :=
  ((scanTokens (s.length + 1) [.start]).whole? s).any fit

end SensorQuery.LogFilter.Pattern
