import SensorQuery.Toml.Scalar

/-!
# TOML documents

A document is a sequence of statements, one on a line: headers, which open tables, and entries,
which go into the table that is open. Arrays may run over several lines.
-/

namespace SensorQuery.Toml

variable {ε : Type}

/-- Values between brackets, with commas between them and maybe one after the last. -/
def array (item : Scanner ε Value) : Scanner ε (List Value) := do
  Scanner.char '['
  let items ← Scanner.optional (do
    let items ← Scanner.separated (Scanner.char ',') (do
      space
      let v ← item
      space
      pure v)
    let _ ← Scanner.optional (Scanner.char ',')
    pure items)
  space
  Scanner.char ']'
  pure (items.getD [])

/-- A key and its value, with an equals sign between them. -/
def entry (item : Scanner ε Value) : Scanner ε (List String × String × Value) := do
  let (keys, key) ← dottedKey
  Scanner.char '='
  gap
  let v ← item
  pure (keys, key, v)

/-- The table of entries that stand between braces. -/
def Table.ofEntries? (entries : List (List String × String × Value)) : Option (Table Value) :=
  entries.foldlM (fun t (keys, key, v) ↦ t.addEntry? keys key v) (.empty .braces)

/-- Entries between braces on one line, with commas between them. -/
def braced (item : Scanner ε Value) : Scanner ε (Table Value) := do
  Scanner.char '\x7b'
  let entries ← Scanner.optional (Scanner.separated (Scanner.char ',') (do
    let e ← entry item
    gap
    pure e))
  gap
  Scanner.char '\x7d'
  Scanner.ofOption (Table.ofEntries? (entries.getD []))

/-- A value that holds others to at most the given depth. -/
def value : Nat → Scanner ε Value
  | 0 => scalar
  | depth + 1 => Scanner.firstOf
    [scalar,
      do let items ← array (value depth); pure (.array items),
      do let t ← braced (value depth); pure (.table t)]

/-- A statement of a document. -/
inductive Statement where
  /-- Opens the table with a key in the table that other keys lead to. -/
  | table (keys : List String) (key : String)
  /-- Opens a further row. -/
  | row (keys : List String) (key : String)
  /-- Adds a value to the open table. -/
  | entry (keys : List String) (key : String) (v : Value)

/-- The end of a line or of the text, in front of which a comment may stand. -/
def lineEnd : Scanner ε Unit := do
  gap
  let _ ← Scanner.optional comment
  Scanner.orElse newline (Scanner.notBefore fun _ ↦ true)

/-- A header of a table, or of a row in doubled brackets. -/
def header : Scanner ε Statement := .orElse
  (do
    Scanner.exactly ['[', '[']
    let (keys, key) ← dottedKey
    Scanner.exactly [']', ']']
    pure (.row keys key))
  (do
    Scanner.char '['
    let (keys, key) ← dottedKey
    Scanner.char ']'
    pure (.table keys key))

/-- A statement with the end of its line. -/
def statement : Scanner ε Statement := do
  let s ← Scanner.orElse header (do
    let (keys, key, v) ← entry (value (depthLimit - 1))
    pure (.entry keys key v))
  lineEnd
  pure s

/-- A line that may hold a statement. -/
def line : Scanner ε (Option Statement) := do
  let s ← Scanner.firstOf
    [do comment; Scanner.orElse newline (Scanner.notBefore fun _ ↦ true); pure none,
      do newline; pure none,
      do let s ← statement; pure (some s)]
  gap
  pure s

/-- The statements of a document, in front of which a byte order mark may stand. -/
def statements : Scanner ε (List Statement) := do
  let _ ← Scanner.optional (Scanner.char '\ufeff')
  gap
  let ss ← Scanner.many line
  pure (ss.filterMap id)

/-- A document as far as it has been read: its table, and the keys of the open one. -/
structure Progress where
  root : Table Value
  current : List String

/-- Carries out a statement. -/
def Progress.step? (p : Progress) : Statement → Option Progress
  | .table keys key => do
    let root ← p.root.alter? .headers (Table.openTable? key) keys
    pure ⟨root, keys ++ [key]⟩
  | .row keys key => do
    let root ← p.root.alter? .headers (Table.openRow? key) keys
    pure ⟨root, keys ++ [key]⟩
  | .entry keys key v => do
    let root ← p.root.alter? .headers (Table.addEntry? keys key v) p.current
    pure { p with root }

/-- The table of a document. -/
def Table.parse? (text : String) : Option (Table Value) := do
  let ss ← Scanner.whole? (statements (ε := Empty)) text.toList
  let p ← ss.foldlM Progress.step? ⟨.empty .header, []⟩
  pure p.root

end SensorQuery.Toml
