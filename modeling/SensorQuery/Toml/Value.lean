/-!
# TOML values and tables

A table grows while a document is read: headers open tables, dotted keys make tables on their way,
and no key is given twice. What may still be added to a table depends on how it came to be, so each
table records its origin. Operations that a document must not ask for answer `none`.
-/

namespace SensorQuery.Toml

/-- How a table came to be. -/
inductive Origin where
  /-- Under a header of its own. -/
  | header
  /-- On the way to the table of a longer header. -/
  | passed
  /-- On the way of a dotted key. -/
  | dotted
  /-- Between braces, and so complete. -/
  | braces
deriving DecidableEq

/-- A table whose entries are values of some type, each key at most once. -/
structure Table (α : Type) where
  origin : Origin
  entries : List (String × α)

/-- A value. Of floating-point numbers and of dates and times only the form is known. -/
inductive Value where
  | string (s : String)
  | integer (n : Int64)
  | float
  | boolean (b : Bool)
  | moment
  | array (items : List Value)
  | table (t : Table Value)
  /-- An array to which each of its headers adds a table. -/
  | rows (ts : List (Table Value))

/-- The value is a table or an array without entries. -/
def Value.holdsNothing : Value → Bool
  | .array items => items.isEmpty
  | .table t => t.entries.isEmpty
  | .rows ts => ts.isEmpty
  | _ => false

namespace Table

variable {α : Type}

/-- A table without entries. -/
def empty (origin : Origin) : Table α := ⟨origin, []⟩

/-- The value at a key. -/
def get? (t : Table α) (key : String) : Option α := t.entries.lookup key

/-- The table with this value at a key, in the place of an earlier one. -/
def set (t : Table α) (key : String) (a : α) : Table α :=
  if t.entries.any (·.1 = key) then
    { t with entries := t.entries.map fun e ↦ if e.1 = key then (key, a) else e }
  else { t with entries := t.entries ++ [(key, a)] }

/-- The value at a key that is not taken yet. -/
def add? (t : Table α) (key : String) (a : α) : Option (Table α) :=
  match t.get? key with
  | none => some (t.set key a)
  | some _ => none

end Table

/-- What leads through tables: the keys of a header, or those of a dotted key. -/
inductive Route where
  | headers
  | dots
deriving DecidableEq

/-- The origin of the tables that are made on the way. -/
def Route.origin : Route → Origin
  | .headers => .passed
  | .dots => .dotted

/-- The tables that the route may enter. A dotted key enters none that has its own header. -/
def Route.enters : Route → Origin → Bool
  | _, .passed => true
  | _, .dotted => true
  | .headers, .header => true
  | .dots, .header => false
  | _, .braces => false

namespace Table

/-- Changes the table that the keys lead to. Tables that are missing are made, and of rows the
last is entered. -/
def alter? (route : Route) (change : Table Value → Option (Table Value)) :
    List String → Table Value → Option (Table Value)
  | [], t => change t
  | key :: keys, t =>
    match t.get? key with
    | none => do
      let child ← alter? route change keys (empty route.origin)
      pure (t.set key (.table child))
    | some (.table child) =>
      if route.enters child.origin then do
        let child ← alter? route change keys child
        pure (t.set key (.table child))
      else none
    | some (.rows children) => do
      let child ← alter? route change keys (← children.getLast?)
      pure (t.set key (.rows (children.dropLast ++ [child])))
    | some _ => none

/-- Adds a value under a dotted key. The last table on the way must be one of dotted keys. -/
def addEntry? (keys : List String) (key : String) (v : Value) :
    Table Value → Option (Table Value) :=
  alter? .dots
    (fun t ↦ if keys.isEmpty || t.origin = .dotted then t.add? key v else none) keys

/-- Gives a table its header: a new one, or one that longer headers have passed. -/
def openTable? (key : String) (t : Table Value) : Option (Table Value) :=
  match t.get? key with
  | none => some (t.set key (.table (empty .header)))
  | some (.table child) =>
    if child.origin = .passed then some (t.set key (.table { child with origin := .header }))
    else none
  | some _ => none

/-- Adds a row without entries, the first or a further one. -/
def openRow? (key : String) (t : Table Value) : Option (Table Value) :=
  match t.get? key with
  | none => some (t.set key (.rows [empty .header]))
  | some (.rows children) => some (t.set key (.rows (children ++ [empty .header])))
  | some _ => none

end Table

end SensorQuery.Toml
