import SensorQuery.Function.Signature

/-!
# Function catalogs

A catalog holds signatures under their names. Names that differ only in the case of ASCII letters
are one name, and the first signature registered under a name stays. So the folded names of a
catalog are distinct, and a search from the front finds what a table by folded name would.
-/

namespace SensorQuery

/-- The signatures in the order of their registration. -/
structure Catalog where
  signatures : List Signature
deriving DecidableEq

namespace Catalog

/-- The name with its ASCII letters in lower case. -/
def fold (name : String) : List Char := name.toList.map Char.toLower

/-- The catalog without functions. -/
def empty : Catalog := ⟨[]⟩

/-- The signature under a name: the first whose folded name is that of the name. No other has it,
since `register` takes no folded name twice. -/
def get? (c : Catalog) (name : String) : Option Signature :=
  c.signatures.find? fun f ↦ fold f.name = fold name

/-- The catalog with one more signature, unless its folded name is taken. -/
def register (c : Catalog) (f : Signature) : Except FunctionError Catalog :=
  match c.get? f.name with
  | some _ => .error (.alreadyRegistered f.name)
  | none => .ok ⟨c.signatures ++ [f]⟩

/-- Registers signatures until one fails. The catalog holds those before it, beside its error. -/
def registerAll (c : Catalog) : List Signature → Catalog × Option FunctionError
  | [] => (c, none)
  | f :: fs =>
    match c.register f with
    | .ok more => more.registerAll fs
    | .error e => (c, some e)

/-- The names in the order of their registration. -/
def names (c : Catalog) : List String := c.signatures.map Signature.name

/-- The number of signatures. -/
def size (c : Catalog) : Nat := c.signatures.length

/-- The signature under a name, if it accepts the number of arguments. -/
def resolve (c : Catalog) (name : String) (received : Nat) : Except FunctionError Signature :=
  match c.get? name with
  | none => .error (.notFound name)
  | some f =>
    if f.arity.accepts received then .ok f
    else .error (.invalidArity f.name f.arity received)

end Catalog

end SensorQuery
