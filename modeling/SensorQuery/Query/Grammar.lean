import SensorQuery.Query.Constant
import SensorQuery.Query.Expression

/-!
# The grammar of expressions

From the loosest to the tightest: `or`, `and`, comparisons, `add` and `sub`, `mul`, `div` and
`mod`, then `not` and the minus sign. Each binary level is a chain that binds to the left. A
constant of the wrong kind beside an operator or as an argument is refused.

The levels are written over an arbitrary reader of operands; the recursion through parentheses,
arguments and unary operators is bounded by the length of the text, since each turn reads at least
one character.
-/

namespace SensorQuery

namespace BinaryOperator

/-- The comparisons, in the order they are tried. -/
def comparisons : List BinaryOperator :=
  [.equal, .notEqual, .greaterEqual, .greaterThan, .lessEqual, .lessThan]

/-- The operators of one level, from the loosest to the tightest level. -/
def levels : List (List BinaryOperator) :=
  [[.or], [.and], comparisons, [.add, .subtract], [.multiply, .divide, .modulo]]

/-- Reads one of the operators between blanks, the first of which must be there. -/
def scan {ε : Type} (ops : List BinaryOperator) : Scanner ε BinaryOperator := do
  Scanner.blanks1
  Scanner.firstOf <| ops.map fun op ↦ do
    Literal.scanKeyword op.keyword
    Scanner.blanks
    pure op

end BinaryOperator

namespace Expression

open Scanner

/-- A direct constant operand is of a kind that the operator takes. -/
def checkOperand (op : BinaryOperator) : Expression → Except ExpressionError Unit
  | .constant c =>
    if op.admits c.kind then .ok ()
    else .error (.invalidOperand op.keyword (String.ofList c.text))
  | _ => .ok ()

/-- A direct constant operand of `not` is a truth value or null. -/
def checkNegand : Expression → Except ExpressionError Unit
  | .constant c =>
    if c.kind = .boolean ∨ c.kind = .null then .ok ()
    else .error (.invalidOperand "not" (String.ofList c.text))
  | _ => .ok ()

/-- Reads up to `n` operators of a level with their right operands, behind the left one. -/
def scanChainFrom (ops : List BinaryOperator) (operand : Scanner ExpressionError Expression) :
    Nat → Expression → Scanner ExpressionError Expression
  | 0, left => pure left
  | n + 1, left => do
    match ← optional (BinaryOperator.scan ops) with
    | none => pure left
    | some op =>
      let right ← operand
      ofExcept (checkOperand op left)
      ofExcept (checkOperand op right)
      scanChainFrom ops operand n (.binary op left right)

/-- Reads operands with operators of one level between them. -/
def scanChain (ops : List BinaryOperator) (operand : Scanner ExpressionError Expression) :
    Scanner ExpressionError Expression := do
  let left ← operand
  fun s ↦ scanChainFrom ops operand s.length left s

/-- Reads an expression over operands of the tightest level. -/
def scanLevels (operand : Scanner ExpressionError Expression) :
    List (List BinaryOperator) → Scanner ExpressionError Expression
  | [] => operand
  | ops :: tighter => scanChain ops (scanLevels operand tighter)

/-- Reads an expression in parentheses. -/
def scanParens (expression : Scanner ExpressionError Expression) :
    Scanner ExpressionError Expression := do
  char '('
  blanks
  let e ← expression
  blanks
  char ')'
  pure e

/-- Reads a comma between blanks. -/
def scanComma {ε : Type} : Scanner ε Unit := do
  blanks
  char ','
  blanks

/-- What an argument is found to be where it does not fit a parameter. -/
def misfit? (functions : Catalog) (expected : ArgumentKind) : Expression → Option String
  | .constant c => if expected.admits c.kind then none else some (String.ofList c.text)
  | .call name _ =>
    match functions.get? name with
    | some inner =>
      if expected.compatible inner.returns then none
      else some s!"{name}() returning {inner.returns.name}"
    | none => none
  | _ => none

/-- The error of the first argument, from a position on, that does not fit its parameter. -/
def argumentError? (functions : Catalog) (f : Signature) :
    Nat → List Expression → Option FunctionError
  | _, [] => none
  | position, e :: es =>
    match misfit? functions (f.parameter position) e with
    | some found => some (.invalidArgument f.name position (f.parameter position) found)
    | none => argumentError? functions f (position + 1) es

/-- The call of a function of the catalog, under its registered name. -/
def makeCall (functions : Catalog) (name : String) (arguments : List Expression) :
    Except ExpressionError Expression :=
  match functions.resolve name arguments.length with
  | .error (.notFound _) => .error (.unknownFunction name)
  | .error e => .error (.function e)
  | .ok f =>
    match argumentError? functions f 0 arguments with
    | some e => .error (.function e)
    | none => .ok (.call f.name arguments)

/-- Reads the name of a function, which begins with a letter. -/
def scanFunctionName {ε : Type} : Scanner ε (List Char) := do
  let name ← run1 RawStep.isNameChar
  if (name.head?.map Text.isAlphabetic).getD false then pure name else miss

/-- Reads a call. A text that is not one up to its closing parenthesis may still be a path. -/
def scanCall (functions : Catalog) (expression : Scanner ExpressionError Expression) :
    Scanner ExpressionError Expression := do
  let name ← scanFunctionName
  char '('
  blanks
  let arguments ← optional (separated scanComma expression)
  blanks
  char ')'
  ofExcept (makeCall functions (String.ofList name) (arguments.getD []))

/-- Reads an expression in parentheses, a constant, a call or a path. -/
def scanPrimary (ctx : Context) (expression : Scanner ExpressionError Expression) :
    Scanner ExpressionError Expression :=
  firstOf
    [scanParens expression,
    do
      let c ← Literal.scan
      pure (.constant c),
    scanCall ctx.functions expression,
    do
      let p ← PropertyPath.scan ctx
      pure (.path p)]

/-- Reads the word `not`. -/
def scanNot {ε : Type} : Scanner ε Unit := do
  Literal.scanKeyword "not"
  blanks

/-- Reads a minus sign. -/
def scanMinus {ε : Type} : Scanner ε Unit := do
  char '-'
  blanks

/-- Reads an operand of the tightest binary level, nested at most `depth` deep. The word `not` is
never a path, and a minus sign counts as an operator only where no other operand can be read. -/
def scanOperand (ctx : Context) : (depth : Nat) → Scanner ExpressionError Expression
  | 0 => miss
  | depth + 1 => do
    match ← optional scanNot with
    | some () =>
      let operand ← scanOperand ctx depth
      ofExcept (checkNegand operand)
      pure (.unary .not operand)
    | none =>
      orElse (scanPrimary ctx (scanLevels (scanOperand ctx depth) BinaryOperator.levels)) do
        scanMinus
        let operand ← scanOperand ctx depth
        pure (.unary .negate operand)

/-- Reads an expression. -/
def scan (ctx : Context) : Scanner ExpressionError Expression := fun s ↦
  scanLevels (scanOperand ctx (s.length + 1)) BinaryOperator.levels s

/-- The filter that the whole text denotes. -/
def parse (ctx : Context) (text : String) : Except ExpressionError Expression :=
  (scan ctx).entire text

end Expression

namespace Order

open Scanner

/-- Reads a direction behind blanks. -/
def scanDirection {ε : Type} : Scanner ε Bool := do
  blanks1
  orElse
    (do
      Literal.scanKeyword "asc"
      pure false)
    (do
      Literal.scanKeyword "desc"
      pure true)

/-- Reads an expression and a direction, which is ascending where none is given. -/
def scan (ctx : Context) : Scanner ExpressionError Order := do
  let e ← Expression.scan ctx
  let direction ← optional scanDirection
  pure ⟨e, direction.getD false⟩

/-- The orders that the whole text denotes, at least one. -/
def parse (ctx : Context) (text : String) : Except ExpressionError (List Order) :=
  (separated Expression.scanComma (scan ctx)).entire text

end Order

end SensorQuery
