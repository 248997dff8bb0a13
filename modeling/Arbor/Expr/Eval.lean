import Arbor.Expr.Basic
import Arbor.Numeral.Layout
import Arbor.Numeral.Power

/-!
# The value of an expression

An expression has a value in an environment, which gives numbers to names. Every number other than
zero counts as true, and an operator that asks a question answers with one or zero. The right
operand of `&&` and `||` is looked at only where the left one leaves the answer open, so `x != 0 &&
1 / x > 2` has a value everywhere. All other operators take their left operand first, and the first
fault ends the evaluation (`EvalError`).
-/

namespace Arbor

/-- **Environment.** The numbers that names stand for. -/
abbrev Env := String → Option Float

namespace Env

/-- The environment in which every name is free. -/
def empty : Env := fun _ => none

/-- The environment of a list of bindings; a later binding of a name hides an earlier one. -/
def ofList (bindings : List (String × Float)) : Env := fun name => bindings.reverse.lookup name

end Env

/-- Why an expression has no value. -/
inductive EvalError
  /-- A name is free. -/
  | undefined (name : String)
  /-- The right operand of a quotient is zero. -/
  | divisionByZero (numerator : Float)
  /-- A power does not exist or is too large. -/
  | power (base exponent : Float) (fault : Numeral.PowerFault)
  deriving DecidableEq, Repr

/-- The wording of an error. -/
def EvalError.message : EvalError → String
  | undefined name => s!"undefined variable '{name}'"
  | divisionByZero a => s!"division by zero ({Numeral.text a} / 0)"
  | power a b fault => s!"cannot raise {Numeral.text a} to {Numeral.text b}: {fault.message}"

/-- Whether a number counts as true. -/
def isTruthy (x : Float) : Bool := x != 0.0

namespace BinOp

/-- **Operating on two numbers.** `&&` and `||` read both as truth values here; an expression
decides first whether it needs the second. -/
def apply (op : BinOp) (a b : Float) : Except EvalError Float :=
  match op with
  | or => .ok (Expr.ofBool (isTruthy a || isTruthy b))
  | and => .ok (Expr.ofBool (isTruthy a && isTruthy b))
  | lt => .ok (Expr.ofBool (a < b))
  | le => .ok (Expr.ofBool (a ≤ b))
  | gt => .ok (Expr.ofBool (b < a))
  | ge => .ok (Expr.ofBool (b ≤ a))
  | eq => .ok (Expr.ofBool (a == b))
  | ne => .ok (Expr.ofBool (a != b))
  | add => .ok (a + b)
  | sub => .ok (a - b)
  | mul => .ok (a * b)
  | div => if b == 0.0 then .error (.divisionByZero a) else .ok (a / b)
  | pow => (Numeral.power a b).mapError (.power a b)

/-- The value of `a op b` where `a` alone decides it. -/
def decided? (op : BinOp) (a : Float) : Option Float :=
  match op with
  | or => if isTruthy a then some (Expr.ofBool true) else none
  | and => if isTruthy a then none else some (Expr.ofBool false)
  | _ => none

end BinOp

namespace Expr

/-- **Evaluation.** -/
def eval (env : Env) : Expr → Except EvalError Float
  | num v => .ok v
  | truth b => .ok (ofBool b)
  | var name =>
    match env name with
    | some v => .ok v
    | none => .error (.undefined name)
  | neg e => do return -(← e.eval env)
  | not e => do return ofBool !isTruthy (← e.eval env)
  | bin op a b => do
    let left ← a.eval env
    match op.decided? left with
    | some v => return v
    | none => op.apply left (← b.eval env)

/-- Whether an expression is true. -/
def isTrue (env : Env) (e : Expr) : Except EvalError Bool := do
  return isTruthy (← e.eval env)

end Expr

end Arbor
