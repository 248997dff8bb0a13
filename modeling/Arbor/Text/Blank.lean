/-!
# Blanks and lines

Two notions of empty space are in use. Between the lexemes of a rule only spaces and tabs are
skipped (`isGap`); around a whole text every blank character is trimmed (`isBlank`, `trim`). No
blank can be a symbol of a rule. A text is cut into lines at any of ten line ends (`lines`), of
which a carriage return with a line feed after it is one.
-/

namespace Arbor.Text

/-- The characters that `trim` removes: the white space of Unicode and the four ASCII separators. -/
def isBlank (c : Char) : Bool :=
  let n := c.toNat
  (9 ≤ n && n ≤ 13) || (0x1c ≤ n && n ≤ 0x20) || n = 0x85 || n = 0xa0 || n = 0x1680
    || (0x2000 ≤ n && n ≤ 0x200a) || n = 0x2028 || n = 0x2029 || n = 0x202f || n = 0x205f
    || n = 0x3000

/-- The characters that may stand between two lexemes. -/
def isGap (c : Char) : Bool := c = ' ' || c = '\t'

/-- The characters that end a line. -/
def isLineEnd (c : Char) : Bool :=
  let n := c.toNat
  (10 ≤ n && n ≤ 13) || (0x1c ≤ n && n ≤ 0x1e) || n = 0x85 || n = 0x2028 || n = 0x2029

/-- Without the blanks at both ends. -/
def trimmed (cs : List Char) : List Char :=
  ((cs.dropWhile isBlank).reverse.dropWhile isBlank).reverse

/-- A text without the blanks at both ends. -/
def trim (s : String) : String := String.ofList (trimmed s.toList)

/-- **Lines.** The text between line ends. A line end closes a line and opens none, so a text that
ends in one has no empty line after it. -/
def splitLines : List Char → List (List Char)
  | [] => []
  | '\r' :: '\n' :: cs => [] :: splitLines cs
  | c :: cs =>
    if isLineEnd c then [] :: splitLines cs
    else
      match splitLines cs with
      | [] => [[c]]
      | line :: rest => (c :: line) :: rest

/-- The lines of a text. -/
def lines (s : String) : List String := (splitLines s.toList).map String.ofList

/-- Whether a trimmed line holds no rule: it is empty or a comment. -/
def isSkipped (cs : List Char) : Bool :=
  match cs with
  | [] => true
  | c :: _ => c = '#'

end Arbor.Text
