import Arbor.Numeral.Shortest

/-!
# Writing doubles

A double is written as the digits of its shortest decimal, laid out by a `Layout`: which exponents
are written positionally, and what a whole number and a zero look like. Two layouts are in use.
`Layout.full` keeps a mark of the fraction (`4.0`, `-0.0`); `Layout.short`, the one of symbols and
messages, drops it (`4`, `0`). Both write exponents from `-4` to `15` positionally and all others as
`d.ddde±XX`.
-/

namespace Arbor.Numeral

/-- What may differ between two ways of writing a double. -/
structure Layout where
  /-- The least exponent of a leading digit that is still written positionally. -/
  leastPlace : Int := -4
  /-- The greatest exponent of a leading digit that is still written positionally. -/
  greatestPlace : Int := 15
  /-- What follows the digits of a positional whole number. -/
  wholeMark : String
  /-- The least number of digits of a written exponent. -/
  exponentWidth : Nat := 2
  /-- Whether zero shows its sign. -/
  signedZero : Bool

namespace Layout

/-- Whole numbers end in `.0`, and negative zero is `-0.0`. -/
def full : Layout := { wholeMark := ".0", signedZero := true }

/-- Whole numbers end with their last digit, and zero has no sign. -/
def short : Layout := { wholeMark := "", signedZero := false }

/-- The exponent part of scientific notation: a sign and the digits. -/
def exponentText (l : Layout) (e : Int) : String :=
  "e" ++ (if e < 0 then "-" else "+") ++ padded l.exponentWidth e.natAbs

/-- A decimal without trailing zeros, as text. -/
def decimalText (l : Layout) (d : Decimal) : String :=
  let ds := digits d.coefficient
  let p : Int := d.exponent + ds.length - 1
  if l.leastPlace ≤ p ∧ p ≤ l.greatestPlace then
    if 0 ≤ d.exponent then
      String.ofList (ds ++ List.replicate d.exponent.toNat '0') ++ l.wholeMark
    else if 0 ≤ p then
      String.ofList (ds.take (p.toNat + 1) ++ '.' :: ds.drop (p.toNat + 1))
    else
      String.ofList ('0' :: '.' :: List.replicate ((-p).toNat - 1) '0' ++ ds)
  else
    let fraction := if ds.length = 1 then [] else '.' :: ds.drop 1
    String.ofList (ds.take 1 ++ fraction) ++ l.exponentText p

/-- **Writing a double.** -/
def text (l : Layout) (x : Float) : String :=
  if x.isNaN then "nan"
  else
    let sign := if isNegative x then "-" else ""
    if x.isInf then sign ++ "inf"
    else if magnitude x = 0 then (if l.signedZero then sign else "") ++ "0" ++ l.wholeMark
    else sign ++ l.decimalText (shortest (magnitude x))

end Layout

/-- The text of a number in symbols, expressions and messages: `4`, `0.5`, `1e-05`, `inf`. -/
def text (x : Float) : String := Layout.short.text x

end Arbor.Numeral
