import Arbor.Grammar.Basic
import Arbor.Rule.Parser

/-!
# Reading grammars

A grammar is read from the text of its start word and from its rules. Rules come as texts of one or
more lines, as rules ready made, or as a table from predecessors to successors. Blank lines are
skipped, and so are lines that start with `#`. An error in a line carries the number of that line,
counted over all texts together, where a ready-made rule and an empty text count as one line each.
-/

namespace Arbor

/-- Why a grammar could not be read. -/
inductive ReadError
  /-- The text is not a row of symbols. -/
  | word (text : String)
  /-- A parameter in the text has no value by itself. -/
  | wordValue (text : String) (cause : EvalError)
  /-- A rule has a flaw. -/
  | rule (cause : Rule.Error)
  /-- A rule has a flaw, in the line of this number. -/
  | ruleAt (line : Nat) (cause : Rule.Error)
  deriving DecidableEq, Repr

/-- The wording of an error. -/
def ReadError.message : ReadError → String
  | word text => s!"cannot parse axiom {Text.quoted text}"
  | wordValue text cause =>
    s!"axiom parameters must be constants in {Text.quoted text}: {cause.message}"
  | rule cause => cause.message
  | ruleAt line cause => s!"line {line}: {cause.message}"

/-! ### Words -/

/-- **Reading a word.** The parameters may be any expressions that need no names. -/
def Word.parse (s : String) : Except ReadError Word :=
  match Template.ofChars? (Text.trimmed s.toList) with
  | none => .error (.word s)
  | some ts => (ts.mapM (Template.instantiate Env.empty)).mapError (.wordValue s)

/-! ### Rules in numbered lines -/

/-- The lines that hold rules, trimmed and with their numbers, where the first line has the number
`first`. -/
def ruleLines (first : Nat) : List String → List (Nat × String)
  | [] => []
  | line :: rest =>
    let s := Text.trim line
    if Text.isSkipped s.toList then ruleLines (first + 1) rest
    else (first, s) :: ruleLines (first + 1) rest

/-- The rule in a numbered line. -/
def numberedRule (line : Nat × String) : Except ReadError Rule :=
  (Rule.parse line.2).mapError (.ruleAt line.1)

/-- The rules in a list of lines. -/
def rulesOfLines (first : Nat) (lines : List String) : Except ReadError (List Rule) :=
  (ruleLines first lines).mapM numberedRule

/-- The rules in one text. -/
def rulesOfText (s : String) : Except ReadError (List Rule) := rulesOfLines 1 (Text.lines s)

namespace Grammar

/-! ### Grammars -/

/-- A grammar with more rules, in their order. -/
def insertAll (g : Grammar) (rules : List Rule) : Grammar := rules.foldl insert g

/-- **Supply.** Where rules come from: a text of any number of lines, or a rule ready made. -/
inductive Supply
  | text (s : String)
  | ready (r : Rule)
  deriving DecidableEq, Repr

/-- How many lines a supply counts for; an empty text counts for one. -/
def Supply.lineCount : Supply → Nat
  | .text s => max (Text.lines s).length 1
  | .ready _ => 1

/-- The rules of a supply whose first line has the number `first`. -/
def Supply.rules (first : Nat) : Supply → Except ReadError (List Rule)
  | .text s => rulesOfLines first (Text.lines s)
  | .ready r => .ok [r]

/-- The rules of several supplies, one after the other. -/
def suppliedRules (first : Nat) : List Supply → Except ReadError (List Rule)
  | [] => .ok []
  | s :: rest => do
    let rules ← s.rules first
    return rules ++ (← suppliedRules (first + s.lineCount) rest)

/-- **Reading a grammar** from the text of its start word and its rules. -/
def read (start : String) (supplies : List Supply) : Except ReadError Grammar := do
  let word ← Word.parse start
  return insertAll { start := word } (← suppliedRules 1 supplies)

/-- **Reading a table.** Every entry is one line: a predecessor, an arrow and a successor. -/
def ofTable (start : String) (table : List (String × String)) : Except ReadError Grammar :=
  read start (table.map fun (name, successor) => .text s!"{name} -> {successor}")

end Grammar

end Arbor
