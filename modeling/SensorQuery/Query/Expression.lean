import SensorQuery.Query.PropertyPath

/-!
# Expressions

The trees of filters and orders, with their text. Binary operators bind by precedence and to the
left, so an operand is put in parentheses where it binds less than its operator, and on the right
also where it binds as much.
-/

namespace SensorQuery

/-- A binary operator. -/
inductive BinaryOperator where
  | or
  | and
  | equal
  | notEqual
  | greaterThan
  | greaterEqual
  | lessThan
  | lessEqual
  | add
  | subtract
  | multiply
  | divide
  | modulo
deriving DecidableEq

namespace BinaryOperator

/-- The operator's word. -/
def keyword : BinaryOperator → String
  | .or => "or"
  | .and => "and"
  | .equal => "eq"
  | .notEqual => "ne"
  | .greaterThan => "gt"
  | .greaterEqual => "ge"
  | .lessThan => "lt"
  | .lessEqual => "le"
  | .add => "add"
  | .subtract => "sub"
  | .multiply => "mul"
  | .divide => "div"
  | .modulo => "mod"

/-- How tightly the operator binds, from 1 up. -/
def precedence : BinaryOperator → Nat
  | .or => 1
  | .and => 2
  | .equal => 3
  | .notEqual => 3
  | .greaterThan => 3
  | .greaterEqual => 3
  | .lessThan => 3
  | .lessEqual => 3
  | .add => 4
  | .subtract => 4
  | .multiply => 5
  | .divide => 5
  | .modulo => 5

/-- The operator computes with numbers or times. -/
def isArithmetic (op : BinaryOperator) : Bool := 4 ≤ op.precedence

/-- The operator takes constants of the kind. Null is taken by all. -/
def admits (op : BinaryOperator) (kind : Literal.Kind) : Bool :=
  if kind = .null then true
  else if op = .and ∨ op = .or then kind = .boolean
  else if op.isArithmetic then kind = .numeric || kind = .temporal
  else true

end BinaryOperator

/-- A unary operator. -/
inductive UnaryOperator where
  | not
  | negate
deriving DecidableEq

/-- The operator in front of its operand. -/
def UnaryOperator.text : UnaryOperator → List Char
  | .not => ['n', 'o', 't', ' ']
  | .negate => ['-']

/-- An expression. -/
inductive Expression where
  | constant (c : Literal)
  | path (p : PropertyPath)
  | binary (op : BinaryOperator) (left right : Expression)
  | unary (op : UnaryOperator) (operand : Expression)
  | call (name : String) (arguments : List Expression)

namespace Expression

mutual

/-- The expressions are equal. -/
def equals : Expression → Expression → Bool
  | .constant a, .constant b => a = b
  | .path p, .path q => p = q
  | .binary op a b, .binary op' c d => op = op' && a.equals c && b.equals d
  | .unary op a, .unary op' b => op = op' && a.equals b
  | .call f as, .call g bs => f = g && equalsAll as bs
  | _, _ => false

/-- The lists have equal expressions in the same order. -/
def equalsAll : List Expression → List Expression → Bool
  | [], [] => true
  | a :: as, b :: bs => a.equals b && equalsAll as bs
  | _, _ => false

end

mutual

/-- Expressions are compared along their form. -/
theorem equals_iff : (a b : Expression) → (a.equals b = true ↔ a = b)
  | .constant _, b => by cases b <;> simp [equals]
  | .path _, b => by cases b <;> simp [equals]
  | .binary _ left right, b => by
    cases b <;> simp [equals, equals_iff left, equals_iff right, and_assoc]
  | .unary _ operand, b => by cases b <;> simp [equals, equals_iff operand]
  | .call _ arguments, b => by cases b <;> simp [equals, equalsAll_iff arguments]

/-- Lists of expressions are compared one by one. -/
theorem equalsAll_iff : (as bs : List Expression) → (equalsAll as bs = true ↔ as = bs)
  | [], bs => by cases bs <;> simp [equalsAll]
  | a :: as, bs => by cases bs <;> simp [equalsAll, equals_iff a, equalsAll_iff as]

end

instance : DecidableEq Expression := fun a b ↦ decidable_of_iff (a.equals b) (equals_iff a b)

mutual

/-- The expressions have the same form, and their constants are the same. -/
def same : Expression → Expression → Bool
  | .constant a, .constant b => a.same b
  | .path p, .path q => p = q
  | .binary op a b, .binary op' c d => op = op' && a.same c && b.same d
  | .unary op a, .unary op' b => op = op' && a.same b
  | .call f as, .call g bs => f = g && sameAll as bs
  | _, _ => false

/-- The lists have the same expressions in the same order. -/
def sameAll : List Expression → List Expression → Bool
  | [], [] => true
  | a :: as, b :: bs => a.same b && sameAll as bs
  | _, _ => false

end

mutual

/-- The property paths in the expression, from left to right. -/
def paths : Expression → List PropertyPath
  | .constant _ => []
  | .path p => [p]
  | .binary _ left right => left.paths ++ right.paths
  | .unary _ operand => operand.paths
  | .call _ arguments => pathsOfAll arguments

/-- The property paths in the expressions, in order. -/
def pathsOfAll : List Expression → List PropertyPath
  | [] => []
  | e :: es => e.paths ++ pathsOfAll es

end

/-- An operand that needs parentheses beside the operator. -/
def needsParens (op : BinaryOperator) (onRight : Bool) : Expression → Bool
  | .binary inner _ _ =>
    inner.precedence < op.precedence || (onRight && inner.precedence = op.precedence)
  | _ => false

/-- An operand that stands bare behind the unary operator. -/
def standsBare (op : UnaryOperator) : Expression → Bool
  | .path _ => true
  | .call _ _ => true
  | .constant _ => op = .not
  | _ => false

/-- The text, in parentheses if they are needed. -/
def inParens (needed : Bool) (text : List Char) : List Char :=
  if needed then '(' :: text ++ [')'] else text

mutual

/-- The expression as a filter writes it. -/
def text : Expression → List Char
  | .constant c => c.text
  | .path p => p.text
  | .binary op left right =>
    inParens (needsParens op false left) left.text ++ ' ' :: op.keyword.toList ++ ' ' ::
      inParens (needsParens op true right) right.text
  | .unary op operand => op.text ++ inParens (!standsBare op operand) operand.text
  | .call name arguments => name.toList ++ '(' :: argumentsText arguments ++ [')']

/-- The arguments of a call with commas between them. -/
def argumentsText : List Expression → List Char
  | [] => []
  | [e] => e.text
  | e :: es => e.text ++ ',' :: ' ' :: argumentsText es

end

end Expression

/-- An expression to sort by. -/
structure Order where
  expression : Expression
  descending : Bool
deriving DecidableEq

namespace Order

/-- The orders sort the same way by the same expression. -/
def same (a b : Order) : Bool := a.expression.same b.expression && a.descending = b.descending

/-- The lists have the same orders. -/
def sameAll : List Order → List Order → Bool
  | [], [] => true
  | a :: as, b :: bs => a.same b && sameAll as bs
  | _, _ => false

/-- The order as a query writes it. -/
def text (o : Order) : List Char :=
  o.expression.text ++ if o.descending then " desc".toList else []

end Order

end SensorQuery
