/-!
# Expressions

The conditions of rules and the parameters of their successors are expressions over named numbers.
An expression is a tree of numbers, truth values, names, two prefix operators and thirteen operators
between two operands (`BinOp`). A truth value is a number too, one or zero, but a literal of its
own: alone in a section of a rule it is a condition, where a number is a weight.

Two expressions are equal, `a == b`, when they are the same tree with equal numbers in it, where the
two zeros are equal.
-/

namespace Arbor

/-- The operators between two operands. -/
inductive BinOp
  | or | and
  | lt | le | gt | ge | eq | ne
  | add | sub | mul | div | pow
  deriving DecidableEq, Repr

namespace BinOp

/-- How an operator is written. -/
def text : BinOp → String
  | or => "||" | and => "&&"
  | lt => "<" | le => "<=" | gt => ">" | ge => ">=" | eq => "==" | ne => "!="
  | add => "+" | sub => "-" | mul => "*" | div => "/" | pow => "^"

/-- The operators that compare two numbers. -/
def isComparison : BinOp → Bool
  | lt | le | gt | ge | eq | ne => true
  | _ => false

end BinOp

/-- **Expression.** -/
inductive Expr
  | num (value : Float)
  | truth (value : Bool)
  | var (name : String)
  | neg (operand : Expr)
  | not (operand : Expr)
  | bin (op : BinOp) (left right : Expr)
  deriving BEq, DecidableEq, Repr

namespace Expr

/-- The names in an expression, from left to right and as often as they occur. -/
def vars : Expr → List String
  | num _ | truth _ => []
  | var name => [name]
  | neg e | not e => e.vars
  | bin _ a b => a.vars ++ b.vars

/-- A truth value as a number. -/
def ofBool (b : Bool) : Float := if b then 1.0 else 0.0

/-- **Folding.** The expression for minus `e`. Minus a literal is a number, so that `-1` is one. -/
def negated : Expr → Expr
  | num v => num (-v)
  | truth b => num (-ofBool b)
  | e => neg e

end Expr

end Arbor
