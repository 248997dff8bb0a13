/-!
# Doubles as whole numbers of grains

The least positive double is `2 ^ -1074`, and every finite double is a whole multiple of it. We call
that least double a *grain*. A finite magnitude is then one natural number, its count of grains
(`grains`), and a magnitude's bit pattern is a second one, its rank among all magnitudes
(`magnitude`). Nothing about a double's value needs more than these two numbers and a sign:

* `nearestRank` is the rank of the double nearest to a ratio of naturals, ties to the even
  significand. It counts the ratio in grains, drops the bits that a significand of 53 bits cannot
  hold, and reads the rank off the count of dropped bits and the rounded quotient;
* `ofInt` is that rounding for integers, with their sign.

A ratio enters `nearestRank` only through quotients of its two parts, so scaling both parts by one
factor changes nothing (`nearestRank_mul_right`).
-/

namespace Arbor.Numeral

/-! ### Rounding a quotient -/

/-- **Half to even.** The whole number nearest to `num / den`; of two equally near ones the even
one. -/
def roundHalfEven (num den : Nat) : Nat :=
  let quotient := num / den
  let twice := 2 * (num % den)
  if twice < den then quotient
  else if den < twice then quotient + 1
  else quotient + quotient % 2

/-- A quotient without remainder is its own rounding. -/
theorem roundHalfEven_mul (n : Nat) {den : Nat} (h : 0 < den) :
    roundHalfEven (n * den) den = n := by
  simp [roundHalfEven, Nat.mul_div_cancel n h, h]

/-- Scaling both parts of a quotient by one positive factor keeps its rounding. -/
theorem roundHalfEven_mul_right (num den : Nat) {c : Nat} (h : 0 < c) :
    roundHalfEven (num * c) (den * c) = roundHalfEven num den := by
  have hlt : ∀ a b : Nat, a * c < b * c ↔ a < b := fun a b => Nat.mul_lt_mul_right h
  simp only [roundHalfEven, Nat.mul_div_mul_right num den h, Nat.mul_mod_mul_right,
    ← Nat.mul_assoc, hlt]

/-! ### Bit patterns -/

/-- The number of grains in one. -/
def grainsPerOne : Nat := Nat.pow 2 1074

/-- The distance between the ranks of a power of two and of the next: 52 bits stand after the
leading bit of a significand. -/
def binade : Nat := Nat.pow 2 52

/-- The rank of infinity, which is the number of finite magnitudes. -/
def infinityRank : Nat := 2047 * binade

/-- What the sign of a negative double adds to its rank in the bit pattern. -/
def signBit : Nat := Nat.pow 2 63

/-- Whether a double has the negative sign, which zeros can have too. -/
def isNegative (x : Float) : Bool := signBit ≤ x.toBits.toNat

/-- **Rank.** The bit pattern of `x` without its sign: the number of magnitudes below that of
`x`. -/
def magnitude (x : Float) : Nat := x.toBits.toNat % signBit

/-- The count of grains in the magnitude of rank `rank`. The first two binades lie one grain apart,
and each later binade twice as wide as the one before it. -/
def grainsOfRank (rank : Nat) : Nat :=
  let field := rank / binade
  if field = 0 then rank else (binade + rank % binade) * Nat.pow 2 (field - 1)

/-- **Grains.** The count of grains in the magnitude of a finite double. -/
def grains (x : Float) : Nat := grainsOfRank (magnitude x)

/-- The double with a sign and a rank; a rank past infinity's stands for infinity. -/
def ofRank (negative : Bool) (rank : Nat) : Float :=
  .ofBits (UInt64.ofNat ((if negative then signBit else 0) + min rank infinityRank))

/-- Positive infinity. -/
def infinity : Float := ofRank false infinityRank

/-! ### Rounding to a double -/

/-- **Nearest rank.** The rank of the magnitude nearest to `num / den`, ties to the even
significand. With `s` bits beyond the 53 that a significand holds, the rounded quotient of the rest
counts magnitudes from the start of binade `s`, and a quotient that carries to `2 ^ 53` is by itself
the start of the next one. Past the largest finite magnitude the rank is infinity's or more. -/
def nearestRank (num den : Nat) : Nat :=
  let counted := num * grainsPerOne / den
  let excess := counted.log2 - 52
  excess * binade + roundHalfEven (num * grainsPerOne) (den * Nat.pow 2 excess)

/-- Scaling both parts of a ratio by one positive factor keeps the rank nearest to it. -/
theorem nearestRank_mul_right (num den : Nat) {c : Nat} (h : 0 < c) :
    nearestRank (num * c) (den * c) = nearestRank num den := by
  have hn : num * c * grainsPerOne = num * grainsPerOne * c := Nat.mul_right_comm ..
  have hd : ∀ k, den * c * k = den * k * c := fun k => Nat.mul_right_comm ..
  simp only [nearestRank, hn, hd, roundHalfEven_mul_right _ _ h, Nat.mul_div_mul_right _ _ h]

/-- The double nearest to an integer, infinite where that is past the largest finite double. -/
def ofInt (n : Int) : Float := ofRank (n < 0) (nearestRank n.natAbs 1)

end Arbor.Numeral
