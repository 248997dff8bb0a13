import Arbor.Text.Printable

/-!
# Quoted text

Messages quote the text they are about. It stands in single quotes, or in double quotes when it
holds a single quote and no double one. The backslash, the quote in use and the unprintable
characters are escaped: `\n`, `\r` and `\t` by letter, all others by code point in two, four or
eight hexadecimal digits.
-/

namespace Arbor.Text

/-- `n` in lower-case hexadecimal, filled up with zeros to `width` digits. -/
def hexadecimal (width n : Nat) : List Char :=
  let ds := Nat.toDigits 16 n
  List.replicate (width - ds.length) '0' ++ ds

/-- One character between quotes of the kind `mark`. -/
def quotedChar (mark c : Char) : List Char :=
  if c = '\\' ∨ c = mark then ['\\', c]
  else if c = '\n' then ['\\', 'n']
  else if c = '\r' then ['\\', 'r']
  else if c = '\t' then ['\\', 't']
  else if isPrintable c then [c]
  else if c.toNat < 0x100 then '\\' :: 'x' :: hexadecimal 2 c.toNat
  else if c.toNat < 0x10000 then '\\' :: 'u' :: hexadecimal 4 c.toNat
  else '\\' :: 'U' :: hexadecimal 8 c.toNat

/-- The kind of quote that a text is put in. -/
def quoteMark (cs : List Char) : Char :=
  if '\'' ∈ cs ∧ '\"' ∉ cs then '\"' else '\''

/-- **Quoting.** A text in quotes, with escapes for what would not be seen. -/
def quoted (s : String) : String :=
  let cs := s.toList
  let mark := quoteMark cs
  String.ofList (mark :: cs.flatMap (quotedChar mark) ++ [mark])

end Arbor.Text
