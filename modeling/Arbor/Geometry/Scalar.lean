import Arbor.Numeral.Power

/-!
# The numbers of geometry

The turtle moves in a space of coordinates of some type of numbers. What it asks of that type is
collected here (`Scalar`): the four operations, a comparison and an equality to decide on, square
roots, powers with integer exponents, and angles. Nothing is assumed of the operations. With doubles
for numbers they round; with an exact field for numbers the same turtle is the one of the textbooks.

An angle without a cosine and a sine, as infinity is, cannot be turned by; `Scalar.cosSin` then has
no value.
-/

namespace Arbor

open Numeral (WholePowerFault)

/-- **Numbers for coordinates.** -/
class Scalar (α : Type) extends Add α, Sub α, Mul α, Div α, Neg α, BEq α, LT α where
  /-- Zero. -/
  zero : α
  /-- One. -/
  one : α
  /-- The comparison can be decided. -/
  decLt : DecidableLT α
  /-- Square roots. -/
  sqrt : α → α
  /-- Powers with integer exponents. -/
  power : α → Int → Except WholePowerFault α
  /-- Degrees as an angle that `cosSin` takes. -/
  radians : α → α
  /-- The angle of half a turn, for `cosSin`. -/
  halfTurn : α
  /-- The cosine and the sine of an angle. -/
  cosSin : α → Option (α × α)

attribute [reducible, instance] Scalar.decLt

namespace Scalar

variable {α : Type} [Scalar α]

/-- The smaller of two numbers. A number that differs from itself counts as smaller than all. -/
def lesser (a b : α) : α := if a < b || !(a == a) then a else b

/-- The greater of two numbers. A number that differs from itself counts as greater than all. -/
def greater (a b : α) : α := if b < a || !(a == a) then a else b

/-- A number, or zero in place of a negative one. -/
def clipped (a : α) : α := if a < zero then zero else a

end Scalar

/-- Doubles as coordinates. -/
instance : Scalar Float where
  zero := 0.0
  one := 1.0
  decLt := Float.decLt
  sqrt := Float.sqrt
  power := Numeral.wholePower
  radians degrees := degrees * (3.141592653589793 / 180.0)
  halfTurn := 3.141592653589793
  cosSin angle := if angle.isInf then none else some (angle.cos, angle.sin)

end Arbor
