import Arbor.Numeral.Decimal

/-!
# The shortest decimal of a double

Of all decimals that read back as a given magnitude, `shortest` gives one with the fewest digits
and, among those, the one nearest to the magnitude. It looks at the decimal grids of one, two, up to
seventeen digits in turn. On each grid the magnitude has two neighbours, one on either side; a
neighbour counts when `Decimal.rank` reads it back as the magnitude's rank. Seventeen digits always
suffice, so the exact expansion after the search only makes the function total without an
assumption.

`place` is the exponent of the leading digit, found from the number of digits before the point or,
for a double below one, from that of its reciprocal.
-/

namespace Arbor.Numeral

/-- **Place.** The exponent of the leading decimal digit of `g` grains, for `0 < g`: the `p` with
`10 ^ p ≤ g / grainsPerOne < 10 ^ (p + 1)`. -/
def place (g : Nat) : Int :=
  if grainsPerOne ≤ g then digitCount (g / grainsPerOne) - 1
  else -(digitCount ((grainsPerOne - 1) / g) : Int)

/-- `g` grains as a ratio in units of `10 ^ exponent`. -/
def onGrid (g : Nat) (exponent : Int) : Nat × Nat :=
  if 0 ≤ exponent then (g, grainsPerOne * Nat.pow 10 exponent.toNat)
  else (g * Nat.pow 10 (-exponent).toNat, grainsPerOne)

/-- **Neighbour.** The neighbour of the magnitude of rank `r` on the grid of `10 ^ exponent` that
reads back as it: the nearer one where both do, and of two equally near ones the even one. -/
def neighbour? (r : Nat) (exponent : Int) : Option Decimal :=
  let (num, den) := onGrid (grainsOfRank r) exponent
  let below : Decimal := ⟨num / den, exponent⟩
  let above : Decimal := ⟨num / den + 1, exponent⟩
  if below.rank = r then
    if above.rank = r ∧ roundHalfEven num den ≠ num / den then some above else some below
  else if above.rank = r then some above
  else none

/-- Every digit of the magnitude of rank `r`: a grain is `5 ^ 1074 / 10 ^ 1074`. -/
def exactDecimal (r : Nat) : Decimal := ⟨grainsOfRank r * Nat.pow 5 1074, -1074⟩

/-- **Shortest.** The decimal of fewest digits that reads back as the positive finite magnitude of
rank `r`, and of those the nearest to it. -/
def shortest (r : Nat) : Decimal :=
  let p := place (grainsOfRank r)
  let found := (List.range 17).findSome? fun (n : Nat) => neighbour? r (p - n)
  (found.getD (exactDecimal r)).normalize

end Arbor.Numeral
