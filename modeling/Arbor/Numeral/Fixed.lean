import Arbor.Numeral.Layout

/-!
# Writing coordinates

Coordinates, lengths and matrix entries are written to a fixed number of digits, so that the last
bits of a rotation do not show: six places after the point below a million, ten significant digits
in scientific notation from there on. Both round the exact value of the double, a half to the even
digit.
-/

namespace Arbor.Numeral.Fixed

/-- The magnitude of `g` grains with `places` digits after the point. -/
def positional (places g : Nat) : String :=
  let one := Nat.pow 10 places
  let scaled := roundHalfEven (g * one) grainsPerOne
  toString (scaled / one) ++ "." ++ padded places (scaled % one)

/-- The magnitude of `g` grains, `0 < g`, in scientific notation with `places` digits after the
point. A coefficient that rounds up to the next power of ten moves the point. -/
def scientific (places g : Nat) : String :=
  let p := place g
  let (num, den) := onGrid g (p - places)
  let one := Nat.pow 10 places
  let scaled := roundHalfEven num den
  let (coefficient, p) := if scaled = 10 * one then (one, p + 1) else (scaled, p)
  toString (coefficient / one) ++ "." ++ padded places (coefficient % one)
    ++ Layout.full.exponentText p

/-- Below this magnitude a coordinate is written positionally. -/
def positionalBelow : Nat := 1000000

/-- **Writing a coordinate.** A negative value that rounds to zero is written without its sign. -/
def text (x : Float) : String :=
  if x.isNaN then "nan"
  else
    let sign := if isNegative x then "-" else ""
    if x.isInf then sign ++ "inf"
    else
      let g := grains x
      if g < positionalBelow * grainsPerOne then
        let unsigned := positional 6 g
        if unsigned = positional 6 0 then unsigned else sign ++ unsigned
      else sign ++ scientific 9 g

end Arbor.Numeral.Fixed
