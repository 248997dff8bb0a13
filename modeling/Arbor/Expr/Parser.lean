import Arbor.Expr.Token
import Arbor.Text.Quoted

/-!
# Reading expressions

The operators bind in levels, from the loosest to the tightest:

* `||` and `&&`, each to the left;
* prefix `!`;
* one comparison, which does not chain;
* `+` and `-`, then `*` and `/`, to the left;
* prefix `-`;
* `^`, whose left operand is an atom and whose exponent is anything from prefix `-` on, so it goes
  to the right.

A reader is asked for a `Goal`: an expression of some level, or the rest of a chain whose part so
far is known. Each step of `read?` either goes down one level or has read a token, so a fuel of ten
steps for each character, and ten more, is never used up.
-/

namespace Arbor.Expr

/-- What is to be read next: an expression of a level, or more of a chain that starts with `a`. -/
inductive Goal
  | disjunction | moreDisjuncts (a : Expr)
  | conjunction | moreConjuncts (a : Expr)
  | negation
  | comparison
  | sum | moreTerms (a : Expr)
  | product | moreFactors (a : Expr)
  | unary
  | power
  | atom

/-- **Reading a goal.** The expression at the start of a text and what follows it. A chain ends, and
a level is left, at the first token that cannot go on with it. -/
def read? : Nat → Goal → List Char → Option (Expr × List Char)
  | 0, _, _ => none
  | n + 1, .disjunction, cs => do
    let (a, cs) ← read? n .conjunction cs
    read? n (.moreDisjuncts a) cs
  | n + 1, .moreDisjuncts a, cs =>
    match Token.next? cs with
    | some (.op .or, rest) => do
      let (b, rest) ← read? n .conjunction rest
      read? n (.moreDisjuncts (.bin .or a b)) rest
    | _ => some (a, cs)
  | n + 1, .conjunction, cs => do
    let (a, cs) ← read? n .negation cs
    read? n (.moreConjuncts a) cs
  | n + 1, .moreConjuncts a, cs =>
    match Token.next? cs with
    | some (.op .and, rest) => do
      let (b, rest) ← read? n .negation rest
      read? n (.moreConjuncts (.bin .and a b)) rest
    | _ => some (a, cs)
  | n + 1, .negation, cs =>
    match Token.next? cs with
    | some (.bang, rest) => do
      let (a, rest) ← read? n .negation rest
      some (.not a, rest)
    | _ => read? n .comparison cs
  | n + 1, .comparison, cs => do
    let (a, cs) ← read? n .sum cs
    match Token.next? cs with
    | some (.op op, rest) =>
      if op.isComparison then do
        let (b, rest) ← read? n .sum rest
        some (.bin op a b, rest)
      else some (a, cs)
    | _ => some (a, cs)
  | n + 1, .sum, cs => do
    let (a, cs) ← read? n .product cs
    read? n (.moreTerms a) cs
  | n + 1, .moreTerms a, cs =>
    match Token.next? cs with
    | some (.op .add, rest) => do
      let (b, rest) ← read? n .product rest
      read? n (.moreTerms (.bin .add a b)) rest
    | some (.op .sub, rest) => do
      let (b, rest) ← read? n .product rest
      read? n (.moreTerms (.bin .sub a b)) rest
    | _ => some (a, cs)
  | n + 1, .product, cs => do
    let (a, cs) ← read? n .unary cs
    read? n (.moreFactors a) cs
  | n + 1, .moreFactors a, cs =>
    match Token.next? cs with
    | some (.op .mul, rest) => do
      let (b, rest) ← read? n .unary rest
      read? n (.moreFactors (.bin .mul a b)) rest
    | some (.op .div, rest) => do
      let (b, rest) ← read? n .unary rest
      read? n (.moreFactors (.bin .div a b)) rest
    | _ => some (a, cs)
  | n + 1, .unary, cs =>
    match Token.next? cs with
    | some (.op .sub, rest) => do
      let (a, rest) ← read? n .unary rest
      some (a.negated, rest)
    | _ => read? n .power cs
  | n + 1, .power, cs => do
    let (a, cs) ← read? n .atom cs
    match Token.next? cs with
    | some (.op .pow, rest) => do
      let (b, rest) ← read? n .unary rest
      some (.bin .pow a b, rest)
    | _ => some (a, cs)
  | n + 1, .atom, cs =>
    match Token.next? cs with
    | some (.number d, rest) => some (.num d.toFloat, rest)
    | some (.truth b, rest) => some (.truth b, rest)
    | some (.name s, rest) => some (.var s, rest)
    | some (.lparen, rest) => do
      let (e, rest) ← read? n .disjunction rest
      match Token.next? rest with
      | some (.rparen, rest) => some (e, rest)
      | _ => none
    | _ => none

/-- The expression at the start of a text, as far as it goes, and what follows it. -/
def take? (cs : List Char) : Option (Expr × List Char) :=
  read? (10 * (cs.length + 1)) .disjunction cs

/-- The expression that a whole text is. -/
def ofChars? (cs : List Char) : Option Expr := do
  let (e, rest) ← take? cs
  if Token.skipGaps rest = [] then some e else none

/-- The text is not an expression. -/
structure ParseError where
  text : String
  deriving DecidableEq, Repr

/-- The wording of an error. -/
def ParseError.message (e : ParseError) : String := s!"invalid expression {Text.quoted e.text}"

/-- **Parsing.** -/
def parse (s : String) : Except ParseError Expr :=
  match ofChars? s.toList with
  | some e => .ok e
  | none => .error ⟨s⟩

end Arbor.Expr
