import Arbor.Numeral.Binary

/-!
# Decimals

A decimal is a natural number of digits and a power of ten. This module gives its digits as
characters (`digits`, `ofDigits`), counts them (`digitCount`) and reads a decimal as the nearest
double (`Decimal.rank`, `Decimal.toFloat`). Exponents may be of any size: a decimal far above the
largest double is infinity, and one far below the least is zero, before any power of ten is
computed.
-/

namespace Arbor.Numeral

/-! ### Digits -/

/-- The decimal digits of a natural number, most significant first; `0` has the digit `0`. -/
def digits (n : Nat) : List Char := Nat.toDigits 10 n

/-- The natural number that a row of digits denotes. -/
def ofDigits (ds : List Char) : Nat :=
  ds.foldl (fun n d => 10 * n + (d.toNat - '0'.toNat)) 0

/-- The number of decimal digits of a natural number. -/
def digitCount (n : Nat) : Nat := (digits n).length

/-- `n` in decimal digits, filled up with zeros on the left to `width` digits. -/
def padded (width n : Nat) : String :=
  let ds := digits n
  String.ofList (List.replicate (width - ds.length) '0' ++ ds)

/-! ### Decimals -/

/-- The decimal `coefficient * 10 ^ exponent`. -/
structure Decimal where
  coefficient : Nat
  exponent : Int
  deriving DecidableEq, Repr

namespace Decimal

/-- Divides ten out of `n` as often as it goes, at most `fuel` times: the quotient and how often. -/
def stripZeros : Nat → Nat → Nat × Nat
  | 0, n => (n, 0)
  | fuel + 1, n =>
    if n % 10 = 0 ∧ n ≠ 0 then
      let (m, k) := stripZeros fuel (n / 10)
      (m, k + 1)
    else (n, 0)

/-- The same decimal without zeros at the end of its coefficient. -/
def normalize (d : Decimal) : Decimal :=
  let (coefficient, count) := stripZeros (digitCount d.coefficient) d.coefficient
  ⟨coefficient, d.exponent + count⟩

/-- **Reading.** The rank of the double nearest to a decimal. Past `10 ^ 400` every decimal is
infinite as a double, and one below `10 ^ -400` is zero; `d.coefficient < 2 ^ (log2 + 1)` bounds the
latter. -/
def rank (d : Decimal) : Nat :=
  if d.coefficient = 0 then 0
  else if 400 < d.exponent then infinityRank
  else if d.exponent < -(400 + d.coefficient.log2 : Int) then 0
  else if 0 ≤ d.exponent then nearestRank (d.coefficient * Nat.pow 10 d.exponent.toNat) 1
  else nearestRank d.coefficient (Nat.pow 10 (-d.exponent).toNat)

/-- The double nearest to a decimal. -/
def toFloat (d : Decimal) : Float := ofRank false d.rank

end Decimal

end Arbor.Numeral
