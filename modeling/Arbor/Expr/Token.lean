import Arbor.Expr.Basic
import Arbor.Numeral.Decimal
import Arbor.Text.Blank

/-!
# The tokens of expressions

Inside an expression the text is cut into tokens from left to right. Spaces and tabs may stand in
front of a token, and a token is as long as it can be: `<=` is one token, and so is `->`, which ends
an expression in a rule. `Token.next?` reads one token, by the rule that lexemes of two characters
go before those of one, and those before names and numbers, with which none of them shares a first
character.
-/

namespace Arbor

open Numeral

/-- **Token.** -/
inductive Token
  | number (value : Decimal)
  | name (name : String)
  | truth (value : Bool)
  | op (op : BinOp)
  | bang | lparen | rparen | comma | colon | arrow
  deriving DecidableEq, Repr

namespace Token

/-- Without the spaces and tabs in front. -/
def skipGaps (cs : List Char) : List Char := cs.dropWhile Text.isGap

@[simp] theorem skipGaps_skipGaps (cs : List Char) : skipGaps (skipGaps cs) = skipGaps cs := by
  induction cs with
  | nil => rfl
  | cons c cs ih =>
    by_cases h : Text.isGap c
    · simpa [skipGaps, List.dropWhile_cons, h] using ih
    · simp [skipGaps, h]

/-- The tokens of two characters. -/
def pair? : Char → Char → Option Token
  | '|', '|' => some (.op .or)
  | '&', '&' => some (.op .and)
  | '<', '=' => some (.op .le)
  | '>', '=' => some (.op .ge)
  | '=', '=' => some (.op .eq)
  | '!', '=' => some (.op .ne)
  | '-', '>' => some .arrow
  | _, _ => none

/-- The tokens of one character. -/
def single? : Char → Option Token
  | '<' => some (.op .lt)
  | '>' => some (.op .gt)
  | '+' => some (.op .add)
  | '-' => some (.op .sub)
  | '*' => some (.op .mul)
  | '/' => some (.op .div)
  | '^' => some (.op .pow)
  | '!' => some .bang
  | '(' => some .lparen
  | ')' => some .rparen
  | ',' => some .comma
  | ':' => some .colon
  | _ => none

/-! ### Names -/

/-- The characters that a name starts with. -/
def isNameStart (c : Char) : Bool := c.isLower || c = '_'

/-- The characters that a name goes on with. -/
def isNameRest (c : Char) : Bool := c.isAlphanum || c = '_'

/-- The token of a whole name: two names are kept for the truth values. -/
def ofName (s : String) : Token :=
  if s = "true" then .truth true else if s = "false" then .truth false else .name s

/-- The name that a token spells, for places where no truth value can stand. -/
def name? : Token → Option String
  | .name s => some s
  | .truth b => some (if b then "true" else "false")
  | _ => none

/-! ### Numbers -/

/-- The exponent part at the start of a text, complete with its digits, and what follows. -/
def exponent? : List Char → Option (Int × List Char)
  | e :: cs =>
    if e = 'e' ∨ e = 'E' then
      let (negative, cs) :=
        match cs with
        | '-' :: r => (true, r)
        | '+' :: r => (false, r)
        | r => (false, r)
      let ds := cs.takeWhile Char.isDigit
      if ds = [] then none
      else some (if negative then -(ofDigits ds : Int) else ofDigits ds, cs.dropWhile Char.isDigit)
    else none
  | [] => none

/-- **Numbers.** The number at the start of a text: digits with at most one point among them or at
either end, then an exponent if it is complete. -/
def number? (cs : List Char) : Option (Decimal × List Char) :=
  let whole := cs.takeWhile Char.isDigit
  let (fraction, rest) :=
    match cs.dropWhile Char.isDigit with
    | '.' :: r => (r.takeWhile Char.isDigit, r.dropWhile Char.isDigit)
    | r => ([], r)
  if whole = [] ∧ fraction = [] then none
  else
    let (exponent, rest) := (exponent? rest).getD (0, rest)
    some (⟨ofDigits (whole ++ fraction), exponent - fraction.length⟩, rest)

/-- The name or number at the start of a text. -/
def word? : List Char → Option (Token × List Char)
  | [] => none
  | c :: cs =>
    if isNameStart c then
      some (ofName (String.ofList (c :: cs.takeWhile isNameRest)), cs.dropWhile isNameRest)
    else (number? (c :: cs)).map fun (d, rest) => (.number d, rest)

/-! ### Reading one token -/

/-- **The next token** of a text and what follows it; nothing at the end and where no token
starts. -/
def next? (cs : List Char) : Option (Token × List Char) :=
  match skipGaps cs with
  | [] => none
  | c :: rest =>
    match rest.head?.bind (pair? c) with
    | some t => some (t, rest.tail)
    | none =>
      match single? c with
      | some t => some (t, rest)
      | none => word? (c :: rest)

end Token

end Arbor
