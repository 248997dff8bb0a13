import Arbor.Expr.Parser
import Arbor.Rule.Basic

/-!
# Reading rules

A rule is written

    left < predecessor(a, b) > right : condition : weight -> successor

where all but the predecessor and the arrow may be missing. A symbol is a single character other
than a blank and `( ) , < > : ~`, so in a row of symbols any punctuation counts as one, with one
exception: where a row may end, `->` ends it. Where a symbol has to stand, `-` is one even before
`>`.

Reading has two stages. `Written.ofChars?` finds the parts of a rule and fails only on text that has
not the form above. `Written.toRule` then makes a rule of the parts, or says what is wrong with them
(`Rule.Error`); of several faults it reports the first in the order of the constructors.
-/

namespace Arbor

open Token (skipGaps)

/-! ### Symbols, arrows and marks -/

/-- The characters that can be symbols. -/
def isSymbolChar (c : Char) : Bool := !Text.isBlank c && c ∉ ['(', ')', ',', '<', '>', ':', '~']

/-- The symbol of a single character. -/
def symbolName (c : Char) : String := String.ofList [c]

/-- The symbol that has to stand next, and what follows it. -/
def symbol? (cs : List Char) : Option (Char × List Char) :=
  match skipGaps cs with
  | c :: rest => if isSymbolChar c then some (c, rest) else none
  | [] => none

/-- What follows the character `mark`, if it stands next. -/
def mark? (mark : Char) (cs : List Char) : Option (List Char) :=
  match skipGaps cs with
  | c :: rest => if c = mark then some rest else none
  | [] => none

/-- What follows the arrow, if it stands next. -/
def arrow? (cs : List Char) : Option (List Char) :=
  match skipGaps cs with
  | '-' :: '>' :: rest => some rest
  | _ => none

/-- **Rows.** The symbols up to the arrow or to a character that is none, and what follows them. -/
def row : List Char → List Char × List Char
  | [] => ([], [])
  | c :: cs =>
    if Text.isGap c then row cs
    else if c = '-' ∧ cs.head? = some '>' then ([], c :: cs)
    else if isSymbolChar c then
      let (symbols, rest) := row cs
      (c :: symbols, rest)
    else ([], c :: cs)

/-! ### Lists in parentheses -/

/-- One or more of what `item?` reads, with commas between them, up to the closing parenthesis. -/
def listed? {α : Type} (item? : List Char → Option (α × List Char)) :
    Nat → List Char → Option (List α × List Char)
  | 0, _ => none
  | n + 1, cs => do
    let (a, cs) ← item? cs
    match Token.next? cs with
    | some (.comma, rest) => do
      let (as, rest) ← listed? item? n rest
      some (a :: as, rest)
    | some (.rparen, rest) => some ([a], rest)
    | _ => none

/-- A list in parentheses, which may be empty or missing altogether. -/
def parenthesized? {α : Type} (item? : List Char → Option (α × List Char)) (cs : List Char) :
    Option (List α × List Char) :=
  match mark? '(' cs with
  | none => some ([], cs)
  | some rest =>
    match mark? ')' rest with
    | some rest => some ([], rest)
    | none => listed? item? (rest.length + 1) rest

/-- The name of a parameter. Here the words for the truth values are names like any other. -/
def paramName? (cs : List Char) : Option (String × List Char) :=
  match Token.next? cs with
  | some (t, rest) => t.name?.map (·, rest)
  | none => none

/-! ### Templates -/

/-- One template and what follows it. -/
def Template.take? (cs : List Char) : Option (Template × List Char) := do
  let (patch, cs) := match mark? '~' cs with
    | some rest => (true, rest)
    | none => (false, cs)
  let (c, cs) ← symbol? cs
  let (args, cs) ← parenthesized? Expr.take? cs
  some (⟨symbolName c, args, patch⟩, cs)

/-- Templates up to the end of the text. -/
def Template.row? : Nat → List Char → Option (List Template)
  | 0, _ => none
  | n + 1, cs =>
    if skipGaps cs = [] then some []
    else do
      let (t, cs) ← Template.take? cs
      return t :: (← Template.row? n cs)

/-- The templates that a whole text is. -/
def Template.ofChars? (cs : List Char) : Option (List Template) := Template.row? (cs.length + 1) cs

namespace Rule

/-! ### The parts of a rule -/

/-- What stands after a colon: a condition that always holds, or an expression. -/
inductive Section
  | always
  | expr (e : Expr)
  deriving DecidableEq, Repr

/-- The number that a section is, if it is nothing but a number. -/
def Section.weight? : Section → Option Float
  | .expr (.num v) => some v
  | _ => none

/-- The condition that a section puts, if it puts one. -/
def Section.condition? : Section → Option Expr
  | .expr e => some e
  | .always => none

/-- The sections up to and with the arrow, and what follows it. -/
def sections? : Nat → List Char → Option (List Section × List Char)
  | 0, _ => none
  | n + 1, cs =>
    match arrow? cs with
    | some rest => some ([], rest)
    | none => do
      let cs ← mark? ':' cs
      let (s, cs) ← match mark? '*' cs with
        | some rest => some (.always, rest)
        | none => (Expr.take? cs).map fun (e, rest) => (.expr e, rest)
      let (ss, rest) ← sections? n cs
      some (s :: ss, rest)

/-- **Written.** The parts of a rule as they are written; a context may still have several
symbols. -/
structure Written where
  left : Option (List Char)
  predecessor : Char
  params : List String
  right : Option (List Char)
  sections : List Section
  successor : List Template
  deriving DecidableEq, Repr

/-- The left context and the predecessor: a row before `<` and one symbol after it, or one
symbol. -/
def leftPart? (cs : List Char) : Option (Option (List Char) × Char × List Char) := do
  let (c, cs) ← symbol? cs
  let (more, cs) := row cs
  match mark? '<' cs with
  | some rest => do
    let (p, rest) ← symbol? rest
    some (some (c :: more), p, rest)
  | none => if more = [] then some (none, c, cs) else none

/-- The right context: a row of one or more symbols after `>`. -/
def rightPart? (cs : List Char) : Option (Option (List Char) × List Char) :=
  match mark? '>' cs with
  | some rest => do
    let (c, rest) ← symbol? rest
    let (more, rest) := row rest
    some (some (c :: more), rest)
  | none => some (none, cs)

/-- The parts of the rule that a whole text is. -/
def Written.ofChars? (cs : List Char) : Option Written := do
  let (left, predecessor, cs) ← leftPart? cs
  let (params, cs) ← parenthesized? paramName? cs
  let (right, cs) ← rightPart? cs
  let (sections, cs) ← sections? (cs.length + 1) cs
  let successor ← Template.ofChars? cs
  some { left, predecessor, params, right, sections, successor }

/-! ### From the parts to a rule -/

/-- What is wrong with the text of a rule. -/
inductive Flaw
  /-- The text has not the form of a rule. -/
  | malformed
  /-- A parameter name stands twice in the list of names. -/
  | duplicate (name : String)
  /-- There are more than two sections. -/
  | tooManySections
  /-- There are two sections, and the second is not a number. -/
  | weightExpected
  /-- The weight is zero or less. -/
  | weightNotPositive
  /-- The left context has more than one symbol. -/
  | leftContext (symbols : List Char)
  /-- The right context has more than one symbol. -/
  | rightContext (symbols : List Char)
  deriving DecidableEq, Repr

/-- A flaw and the text that has it. -/
structure Error where
  flaw : Flaw
  text : String
  deriving DecidableEq, Repr

/-- The wording of an error. -/
def Error.message (e : Error) : String :=
  let rule := "rule " ++ Text.quoted e.text
  match e.flaw with
  | .malformed => s!"cannot parse {rule}"
  | .duplicate name => s!"parameter '{name}' bound more than once in {rule}"
  | .tooManySections => s!"too many ':' sections in {rule}"
  | .weightExpected => s!"second ':' section must be a numeric weight in {rule}"
  | .weightNotPositive => s!"weight must be > 0 in {rule}"
  | .leftContext cs =>
    s!"left context must be a single symbol, got {Text.quoted (String.ofList cs)} in {rule}"
  | .rightContext cs =>
    s!"right context must be a single symbol, got {Text.quoted (String.ofList cs)} in {rule}"

/-- The first member of a list that stands in it before. -/
def firstRepeated? (seen : List String) : List String → Option String
  | [] => none
  | a :: as => if a ∈ seen then some a else firstRepeated? (a :: seen) as

/-- **Sections.** The condition and the weight that the sections give: of two the first is the
condition and the second the weight, and a single one is a weight if it is a number. -/
def conditionAndWeight : List Section → Except Flaw (Option Expr × Option Float)
  | [] => .ok (none, none)
  | [s] =>
    match s.weight? with
    | some w => .ok (none, some w)
    | none => .ok (s.condition?, none)
  | [s, t] =>
    match t.weight? with
    | some w => .ok (s.condition?, some w)
    | none => .error .weightExpected
  | _ => .error .tooManySections

/-- A context as the one symbol that it has to be. -/
def singleContext (flaw : List Char → Flaw) : Option (List Char) → Except Flaw (Option String)
  | none => .ok none
  | some [c] => .ok (some (symbolName c))
  | some cs => .error (flaw cs)

/-- **From the parts to a rule.** The rule has no text yet. -/
def Written.toRule (w : Written) : Except Flaw Rule := do
  if let some name := firstRepeated? [] w.params then throw (.duplicate name)
  let (condition, weight) ← conditionAndWeight w.sections
  if weight.any (· ≤ 0.0) then throw .weightNotPositive
  let left ← singleContext .leftContext w.left
  let right ← singleContext .rightContext w.right
  return {
    predecessor := symbolName w.predecessor
    params := w.params
    left, right, condition, weight
    successor := w.successor }

/-- **Parsing.** The rule that a text is; it keeps the text, without the blanks around it. -/
def parse (s : String) : Except Error Rule :=
  match Written.ofChars? s.toList with
  | none => .error ⟨.malformed, s⟩
  | some w =>
    match w.toRule with
    | .error flaw => .error ⟨flaw, s⟩
    | .ok r => .ok { r with source := some (Text.trim s) }

end Rule

end Arbor
