import SensorQuery.Function.Signature

/-!
# Errors in expressions

Why a text is no filter, order or property path. An expression that has a form but cannot stand is
told apart from one without form.
-/

namespace SensorQuery

/-- What an expression fails on. -/
inductive ExpressionError where
  /-- The text is no expression. The account of the line and of what was expected there, which
  belongs to this error, is left out, so all malformed texts have one error. -/
  | malformed
  | unknownFunction (name : String)
  | function (source : FunctionError)
  | unknownProperty (name : String)
  | invalidPath (segment reason : String)
  | literal (source : LiteralError)
  | geometry (text : String)
  | invalidOperand (operator operand : String)
deriving DecidableEq

/-- The wording of the error; of a malformed text it says no more than that. -/
def ExpressionError.message : ExpressionError → String
  | .malformed => "syntax error: the text is no expression"
  | .unknownFunction name => s!"unknown function {name}"
  | .function source => source.message
  | .unknownProperty name => s!"unknown property {name}"
  | .invalidPath segment reason => s!"invalid path segment {segment}: {reason}"
  | .literal source => source.message
  | .geometry text => s!"invalid geometry literal '{text}'"
  | .invalidOperand operator operand =>
    s!"operator {operator} does not accept the constant {operand}"

/-- The value of the whole text, blanks around it left aside. -/
def Scanner.entire {α : Type} (p : Scanner ExpressionError α) (text : String) :
    Except ExpressionError α :=
  let padded : Scanner ExpressionError α := do
    blanks
    let a ← p
    blanks
    pure a
  match padded.whole text.toList with
  | .found a _ => .ok a
  | .missed => .error .malformed
  | .refused e => .error e

end SensorQuery
