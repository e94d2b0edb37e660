/-!
# Scanners

A scanner reads a value from the front of a text. Its outcome is one of three: a value with the
rest of the text, a miss after which another alternative may be tried, or a refusal, which ends
the whole scan with its cause. Only a miss lets `orElse`, `optional` and `many` go on.
-/

namespace SensorQuery

/-- What came of a scan. -/
inductive Scan (ε α : Type) where
  /-- A value was read, and `rest` follows it. -/
  | found (value : α) (rest : List Char)
  /-- The text does not have this form. -/
  | missed
  /-- The text has this form and cannot stand. -/
  | refused (cause : ε)
deriving DecidableEq

/-- A reader of values from the front of a text. -/
def Scanner (ε α : Type) : Type := List Char → Scan ε α

namespace Scanner

variable {ε δ α β : Type}

instance : Monad (Scanner ε) where
  pure a := fun s ↦ .found a s
  bind p f := fun s ↦
    match p s with
    | .found a rest => f a rest
    | .missed => .missed
    | .refused e => .refused e

/-- Never reads anything. -/
def miss : Scanner ε α := fun _ ↦ .missed

/-- Ends the scan with a cause. -/
def refuse (e : ε) : Scanner ε α := fun _ ↦ .refused e

/-- The value, or a miss where there is none. -/
def ofOption : Option α → Scanner ε α
  | some a => pure a
  | none => miss

/-- The value, or a refusal with the cause. -/
def ofExcept : Except ε α → Scanner ε α
  | .ok a => pure a
  | .error e => refuse e

/-- Renames the causes of refusal. -/
def mapCause (f : ε → δ) (p : Scanner ε α) : Scanner δ α := fun s ↦
  match p s with
  | .found a rest => .found a rest
  | .missed => .missed
  | .refused e => .refused (f e)

/-- Tries `p`, and `q` at the same place if `p` misses. -/
def orElse (p q : Scanner ε α) : Scanner ε α := fun s ↦
  match p s with
  | .found a rest => .found a rest
  | .missed => q s
  | .refused e => .refused e

/-- The first of the alternatives that does not miss. -/
def firstOf : List (Scanner ε α) → Scanner ε α
  | [] => miss
  | p :: ps => orElse p (firstOf ps)

/-- Reads `p` if it is there. -/
def optional (p : Scanner ε α) : Scanner ε (Option α) := fun s ↦
  match p s with
  | .found a rest => .found (some a) rest
  | .missed => .found none s
  | .refused e => .refused e

/-- Reads `p` up to `n` times, until it misses. -/
def manyUpTo (p : Scanner ε α) : Nat → Scanner ε (List α)
  | 0 => pure []
  | n + 1 => fun s ↦
    match p s with
    | .found a rest =>
      match manyUpTo p n rest with
      | .found as last => .found (a :: as) last
      | .missed => .missed
      | .refused e => .refused e
    | .missed => .found [] s
    | .refused e => .refused e

/-- Reads `p` until it misses. A scanner that reads something each time never runs out of turns. -/
def many (p : Scanner ε α) : Scanner ε (List α) := fun s ↦ manyUpTo p s.length s

/-- One or more `p` with `sep` between them. A `sep` that no `p` follows stays unread. -/
def separated (sep : Scanner ε Unit) (p : Scanner ε α) : Scanner ε (List α) := do
  let a ← p
  let as ← many (do sep; p)
  pure (a :: as)

/-- Reads exactly the word `w`. -/
def exactly (w : List Char) : Scanner ε Unit := fun s ↦
  if w.isPrefixOf s then .found () (s.drop w.length) else .missed

/-- Reads one character of the class. -/
def satisfy (p : Char → Bool) : Scanner ε Char
  | [] => .missed
  | c :: rest => if p c then .found c rest else .missed

/-- Reads one given character. -/
def char (c : Char) : Scanner ε Unit := do
  let _ ← satisfy (· == c)
  pure ()

/-- Reads the longest run of the class, which may be empty. -/
def run (p : Char → Bool) : Scanner ε (List Char) := fun s ↦
  .found (s.takeWhile p) (s.dropWhile p)

/-- Reads the longest run of the class, which holds at least one character. -/
def run1 (p : Char → Bool) : Scanner ε (List Char) := fun s ↦
  if (s.takeWhile p).isEmpty then .missed else .found (s.takeWhile p) (s.dropWhile p)

/-- Reads exactly `n` characters of the class. -/
def exactlyOf (p : Char → Bool) (n : Nat) : Scanner ε (List Char) := fun s ↦
  if (s.take n).length = n ∧ (s.take n).all p then .found (s.take n) (s.drop n) else .missed

/-- One or more ASCII digits. -/
def digits : Scanner ε (List Char) := run1 Char.isDigit

/-- Misses where a character of the class comes next, and reads nothing. -/
def notBefore (p : Char → Bool) : Scanner ε Unit := fun s ↦
  if (s.head?.map p).getD false then .missed else .found () s

/-- Blanks between words, which may be absent. -/
def blanks : Scanner ε Unit := do
  let _ ← run Char.isWhitespace
  pure ()

/-- At least one blank. -/
def blanks1 : Scanner ε Unit := do
  let _ ← run1 Char.isWhitespace
  pure ()

/-- What `p` makes of the whole text: a rest that stays unread counts as a miss. -/
def whole (p : Scanner ε α) (s : List Char) : Scan ε α :=
  match p s with
  | .found a [] => .found a []
  | .found _ (_ :: _) => .missed
  | .missed => .missed
  | .refused e => .refused e

/-- The value of the whole text, if it has this form and is not refused. -/
def whole? (p : Scanner ε α) (s : List Char) : Option α :=
  match whole p s with
  | .found a _ => some a
  | .missed => none
  | .refused _ => none

end Scanner

end SensorQuery
