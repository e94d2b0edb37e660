/-!
# Tables of names

A table gives the positions in a list by the names of what stands there, so that a name is found
without a search through the list. `NameTable.Finds` says that a table agrees with the names of a
list; it is kept when both grow by one name.
-/

namespace SensorQuery

/-- Positions by name. Of the entries of one name the first counts. -/
structure NameTable where
  entries : List (String × Nat)
deriving DecidableEq

namespace NameTable

/-- No name has a position. -/
def empty : NameTable := ⟨[]⟩

/-- The position of the name. -/
def get? (table : NameTable) (name : String) : Option Nat := table.entries.lookup name

/-- Whether the name has a position. -/
def contains (table : NameTable) (name : String) : Bool := (table.get? name).isSome

/-- The item of a list that stands at the position of the name. -/
def find? {α : Type} (table : NameTable) (items : List α) (name : String) : Option α :=
  (table.get? name).bind (items[·]?)

/-- Gives the name the position, in place of any other that it had. -/
def insert (table : NameTable) (name : String) (position : Nat) : NameTable :=
  ⟨(name, position) :: table.entries⟩

variable {table : NameTable} {name other : String} {names : List String} {i : Nat}

/-- The inserted name has its position, and every other name the one that it had. -/
@[simp] theorem get?_insert :
    (table.insert name i).get? other = if name = other then some i else table.get? other := by
  rw [insert, get?, List.lookup_cons]
  by_cases h : other = name
  · simp [h]
  · rw [beq_false_of_ne h, if_neg (Ne.symm h)]
    rfl

/-- The table finds the names and nothing else, each at a place where it stands. -/
structure Finds (table : NameTable) (names : List String) : Prop where
  sound : ∀ name i, table.get? name = some i → names[i]? = some name
  complete : ∀ name ∈ names, ∃ i, table.get? name = some i

namespace Finds

/-- The table without entries finds no names. -/
protected theorem empty : empty.Finds [] := ⟨nofun, nofun⟩

/-- A name that is added behind the others is found at their end. -/
protected theorem insert (h : table.Finds names) (name : String) :
    (table.insert name names.length).Finds (names ++ [name]) where
  sound other i hi := by
    rw [get?_insert] at hi
    split at hi
    · next hsame =>
      cases hi
      simp [hsame]
    · have hother := h.sound other i hi
      rwa [List.getElem?_append_left (List.getElem?_eq_some_iff.mp hother).1]
  complete other hother := by
    rw [get?_insert]
    split
    · exact ⟨_, rfl⟩
    · next hnew =>
      have hmem : other ∈ names := by simpa [Ne.symm hnew] using hother
      exact h.complete other hmem

end Finds

end NameTable

end SensorQuery
