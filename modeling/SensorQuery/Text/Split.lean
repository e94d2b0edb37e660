/-!
# Splitting at separators

Two ways to cut a text: at every occurrence of a character, and only at those that stand outside
quotes and parentheses. Pieces joined with the separator give the text back. Lines are cut at line
feeds.
-/

namespace SensorQuery.Text

/-- Puts `c` in front of the first piece. -/
def pushFront (c : Char) : List (List Char) → List (List Char)
  | [] => [[c]]
  | piece :: pieces => (c :: piece) :: pieces

/-- The pieces between the occurrences of `sep`. -/
def splitAt (sep : Char) : List Char → List (List Char)
  | [] => [[]]
  | c :: s => if c = sep then [] :: splitAt sep s else pushFront c (splitAt sep s)

/-- The text without a carriage return at its end. -/
def dropReturn (s : List Char) : List Char :=
  if s.getLast? = some '\r' then s.dropLast else s

/-- The lines of a text that ends a line: they lie between the line feeds, and a carriage return in
front of a line end is no part of the line. -/
def lines (s : List Char) : List (List Char) := (splitAt '\n' s).map dropReturn

/-- The parts before and after the first `sep`, if there is one. -/
def cutAt? (sep : Char) : List Char → Option (List Char × List Char)
  | [] => none
  | c :: s => if c = sep then some ([], s) else (cutAt? sep s).map fun p ↦ (c :: p.1, p.2)

/-- The parts before and after the last `sep`, if there is one. -/
def cutAtLast? (sep : Char) : List Char → Option (List Char × List Char)
  | [] => none
  | c :: s =>
    match cutAtLast? sep s with
    | some (front, back) => some (c :: front, back)
    | none => if c = sep then some ([], s) else none

/-- The pieces between those `sep` that stand outside quotes at parenthesis depth 0, from a place
at the given depth. There is no answer if a parenthesis closes nothing or stays open. -/
def splitFrom (sep : Char) : (quoted : Bool) → (depth : Nat) → List Char → Option (List (List Char))
  | _, depth, [] => if depth = 0 then some [[]] else none
  | quoted, depth, c :: s =>
    if c = '\'' then (splitFrom sep (!quoted) depth s).map (pushFront c)
    else if quoted then (splitFrom sep quoted depth s).map (pushFront c)
    else if c = '(' then (splitFrom sep quoted (depth + 1) s).map (pushFront c)
    else if c = ')' then
      if depth = 0 then none else (splitFrom sep quoted (depth - 1) s).map (pushFront c)
    else if c = sep ∧ depth = 0 then (splitFrom sep quoted depth s).map ([] :: ·)
    else (splitFrom sep quoted depth s).map (pushFront c)

/-- The pieces between the separators outside quotes and parentheses, if parentheses match. -/
def splitTopLevel (sep : Char) (s : List Char) : Option (List (List Char)) :=
  splitFrom sep false 0 s

end SensorQuery.Text
