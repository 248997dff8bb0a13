import Arbor.Numeral.Binary

/-!
# Powers

Two powers of doubles are in use, and both refuse some arguments.

* `power` raises a double to a double. Finite arguments must have a finite result: where they have
  none, the fault says whether the power does not exist (`PowerFault.domain`) or is too large
  (`PowerFault.range`). What the power of a zero is depends on the sign and the parity of the exponent
  only (`powerOfZero`).
* `wholePower` raises a double to an integer of any size. It knows the sign of the result from the
  parity of the exponent as a double, so an exponent too large to be odd as a double counts as even.
-/

namespace Arbor.Numeral

/-- Why a double has no power with a given exponent. -/
inductive PowerFault
  /-- The power is not a real number, or is a quotient by zero. -/
  | domain
  /-- The power is past the largest finite double. -/
  | range
  deriving DecidableEq, Repr

/-- The wording of a fault. -/
def PowerFault.message : PowerFault → String
  | .domain => "math domain error"
  | .range => "math range error"

/-- Whether a double is an odd whole number, that is, an odd multiple of one. -/
def isOddWhole (x : Float) : Bool :=
  x.isFinite && grains x % (2 * grainsPerOne) = grainsPerOne

/-- The power of a zero with an exponent other than zero. The sign of the zero shows in an odd power
only. -/
def powerOfZero (zero exponent : Float) : Except PowerFault Float :=
  if exponent.isNaN then .ok exponent
  else if exponent < 0.0 then
    if exponent.isInf then .ok infinity else .error .domain
  else .ok (if isOddWhole exponent then zero else 0.0)

/-- **Powers of doubles.** An infinite or undefined argument gives what the floating-point standard
lays down; of finite arguments only a finite result is an answer. -/
def power (base exponent : Float) : Except PowerFault Float :=
  if exponent == 0.0 then .ok 1.0
  else if base == 0.0 then powerOfZero base exponent
  else
    let result := base.pow exponent
    if base.isFinite && exponent.isFinite then
      if result.isNaN then .error .domain
      else if result.isInf then .error .range
      else .ok result
    else .ok result

/-- Why a double has no power with a given integer exponent. -/
inductive WholePowerFault
  /-- The power, or the exponent, is past the largest finite double. -/
  | overflow
  /-- Zero was raised to a negative exponent. -/
  | zeroToNegative
  deriving DecidableEq, Repr

/-- Whether `n` is odd once it is rounded to a double: from `2 ^ 53` on every double is even. -/
def isOddAsDouble (n : Int) : Bool := n % 2 = 1 && n.natAbs < Nat.pow 2 53

/-- **Powers with an integer exponent.** -/
def wholePower (base : Float) (n : Int) : Except WholePowerFault Float :=
  let exponent := ofInt n
  let odd := isOddAsDouble n
  if exponent.isInf then .error .overflow
  else if n = 0 then .ok 1.0
  else if base.isNaN then .ok base
  else if base.isInf then
    let unsigned := if 0 < n then infinity else 0.0
    .ok (if odd && isNegative base then -unsigned else unsigned)
  else if base == 0.0 then
    if n < 0 then .error .zeroToNegative else .ok (if odd then base else 0.0)
  else
    let unsigned := base.abs.pow exponent
    if unsigned.isInf then .error .overflow
    else .ok (if odd && isNegative base then -unsigned else unsigned)

end Arbor.Numeral
