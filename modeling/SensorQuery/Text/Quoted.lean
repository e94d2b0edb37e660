/-!
# Quoted texts

A text is quoted by single quotes around it, and a quote inside it is written twice.
-/

namespace SensorQuery.Text

/-- The text with each quote doubled. -/
def doubled : List Char → List Char
  | [] => []
  | c :: s => if c = '\'' then '\'' :: '\'' :: doubled s else c :: doubled s

/-- The text in quotes. -/
def quote (s : List Char) : List Char := '\'' :: (doubled s ++ ['\''])

/-- Undoes the doubling; a quote that stands alone is refused. -/
def undoubled? : List Char → Option (List Char)
  | [] => some []
  | ['\''] => none
  | '\'' :: d :: s => if d = '\'' then (undoubled? s).map ('\'' :: ·) else none
  | c :: s => (undoubled? s).map (c :: ·)

/-- The text between the two quotes that open and close `s`, read back. -/
def unquote? : List Char → Option (List Char)
  | '\'' :: s => if s.getLast? = some '\'' then undoubled? s.dropLast else none
  | _ => none

end SensorQuery.Text
