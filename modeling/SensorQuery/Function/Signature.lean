import SensorQuery.Literal

/-!
# Function signatures

What is known of a named function before it runs: how many arguments it takes, of which kinds, and
what it returns.
-/

namespace SensorQuery

/-- The numbers of arguments that a function accepts. -/
inductive Arity where
  | exact (n : Nat)
  /-- From `least` to `most`, both included. -/
  | range (least most : Nat)
  | atLeast (least : Nat)
deriving DecidableEq

namespace Arity

/-- The function accepts `n` arguments. -/
def accepts : Arity → Nat → Bool
  | .exact m, n => n = m
  | .range least most, n => least ≤ n && n ≤ most
  | .atLeast least, n => least ≤ n

/-- The arity as `2`, `2..3` or `2+`. -/
def text : Arity → String
  | .exact n => toString n
  | .range least most => toString least ++ ".." ++ toString most
  | .atLeast least => toString least ++ "+"

end Arity

/-- The kind of value that a parameter takes or a function returns. -/
inductive ArgumentKind where
  | any
  | boolean
  | numeric
  | text
  | temporal
  | geometry
deriving DecidableEq

namespace ArgumentKind

/-- A parameter of this kind takes a constant of the given kind. Null is taken everywhere. -/
def admits : ArgumentKind → Literal.Kind → Bool
  | .any, _ => true
  | _, .null => true
  | .boolean, .boolean => true
  | .numeric, .numeric => true
  | .text, .text => true
  | .temporal, .temporal => true
  | .geometry, .geometry => true
  | _, _ => false

/-- The kinds agree, or one of them is open. -/
def compatible (a b : ArgumentKind) : Bool := a = .any || b = .any || a = b

/-- The name of the kind in messages. -/
def name : ArgumentKind → String
  | .any => "any"
  | .boolean => "boolean"
  | .numeric => "numeric"
  | .text => "string"
  | .temporal => "temporal"
  | .geometry => "geometry"

end ArgumentKind

/-- The groups of functions. -/
inductive FunctionCategory where
  | string
  | temporal
  | math
  | spatial
deriving DecidableEq

/-- A named function as its callers see it. -/
structure Signature where
  name : String
  category : FunctionCategory
  arity : Arity
  parameters : List ArgumentKind
  returns : ArgumentKind
deriving DecidableEq

namespace Signature

/-- A function with exactly one argument for each kind. -/
def ofParameters (name : String) (category : FunctionCategory) (parameters : List ArgumentKind)
    (returns : ArgumentKind) : Signature where
  name
  category
  arity := .exact parameters.length
  parameters
  returns

/-- The kind of the argument at a position; positions past the list repeat its last kind. -/
def parameter (f : Signature) (position : Nat) : ArgumentKind :=
  (f.parameters[position]?.orElse fun _ ↦ f.parameters.getLast?).getD .any

end Signature

/-- Why a function cannot be registered or called. -/
inductive FunctionError where
  | alreadyRegistered (name : String)
  | notFound (name : String)
  | invalidArity (name : String) (expected : Arity) (received : Nat)
  | invalidArgument (name : String) (position : Nat) (expected : ArgumentKind) (found : String)
deriving DecidableEq

/-- The wording of the error; positions are counted from one. -/
def FunctionError.message : FunctionError → String
  | .alreadyRegistered name => s!"function '{name}' is already registered"
  | .notFound name => s!"function '{name}' is not registered"
  | .invalidArity name expected received =>
    s!"invalid argument count for '{name}': expected {expected.text}, received {received}"
  | .invalidArgument name position expected found =>
    s!"argument {position + 1} of '{name}' must be {expected.name}, found {found}"

end SensorQuery
