import Arbor.Settings.Operation

/-!
# Settings

Settings describe a whole run: a start word and rules, how many steps to derive, the seed of the
draws, and how the turtle draws the result. They are read from one object (`Settings.parse`). Most
members have a default; those that are there must be of the right kind and in range. Members are
looked at in a fixed order, and the first one that is wrong is reported. The grammar is read last,
so that a flaw in a rule shows here and not only in the run.
-/

namespace Arbor

/-- The rules in settings: texts of one or more lines, or a table from predecessors to
successors. -/
inductive RuleTexts
  | texts (items : List String)
  | table (entries : List (String × String))
  deriving DecidableEq, Repr

/-- The seed of the draws where none is given. -/
def defaultSeed : Int := 133742

/-- **Settings.** -/
structure Settings where
  name : String
  start : String
  rules : RuleTexts
  depth : Nat
  seed : Int
  setup : Setup Float
  table : Table

namespace Settings

/-- The grammar that the start word and the rules describe. -/
def grammar (c : Settings) : Except ReadError Grammar :=
  match c.rules with
  | .texts items => Grammar.read c.start (items.map .text)
  | .table entries => Grammar.ofTable c.start entries

/-- A condition, and the error where it does not hold. -/
def require (p : Prop) [Decidable p] (e : Error) : Except Error Unit := if p then .ok () else .error e

/-! ### Values of a kind -/

/-- A text at a path. -/
def asString (path : String) : Value → Except Error String
  | .str s => .ok s
  | _ => .error (.notString path)

/-- The members of an object at a path. -/
def asObject (path : String) : Value → Except Error Value.Members
  | .object ms => .ok ms
  | _ => .error (.notObject path)

/-- A whole number at a path. -/
def asInt (path : String) : Value → Except Error Int
  | .int n => .ok n
  | _ => .error (.notInteger path)

/-- A number at a path, as a double. -/
def asNumber (path : String) : Value → Except Error Float
  | .float x => .ok x
  | .int n =>
    let x := Numeral.ofInt n
    if x.isInf then .error .tooLarge else .ok x
  | _ => .error (.notNumber path)

/-- The member under a key, as a number. -/
def number (ms : Value.Members) (path key : String) (default : Float) : Except Error Float :=
  asNumber (path ++ key) (ms.findD key (.float default))

/-- Whether a key is a single character. -/
def isSingle (key : String) : Bool := key.length = 1

/-! ### Parts of settings -/

/-- The texts in a list, of which the first has the place `i`. -/
def textsFrom (i : Nat) : List Value → Except Error (List String)
  | [] => .ok []
  | v :: vs => do
    let s ← asString s!"rules[{i}]" v
    return s :: (← textsFrom (i + 1) vs)

/-- One entry of a table of rules. -/
def ruleEntry : String × Value → Except Error (String × String)
  | (key, v) => do
    require (isSingle key) .ruleKey
    return (key, ← asString s!"rules['{key}']" v)

/-- The rules: one text, a list of texts, or a table. -/
def ruleTexts : Value → Except Error RuleTexts
  | .str s => .ok (.texts [s])
  | .list vs => return .texts (← textsFrom 0 vs)
  | v => do return .table (← (← asObject "rules" v).mapM ruleEntry)

/-- The number of colors, which may be missing. -/
def palette? : Value → Except Error (Option Int)
  | .null => .ok none
  | v => do
    let n ← asInt "turtle.palette_size" v
    require (1 ≤ n) .palette
    return some n

/-- The setup of the turtle. -/
def turtleSetup (ms : Value.Members) : Except Error (Setup Float) := do
  let start ← asObject "turtle.start" (ms.findD "start" (.object []))
  let step ← number ms "turtle." "step" 1.0
  let width ← number ms "turtle." "line_width" 1.0
  require ((0.0 : Float) ≤ width) (.negative "turtle.line_width")
  let palette ← palette? (ms.findD "palette_size" .null)
  let x ← number start "turtle.start." "x" 0.0
  let y ← number start "turtle.start." "y" 0.0
  let z ← number start "turtle.start." "z" 0.0
  let heading ← number start "turtle.start." "heading" 0.0
  let angle ← number ms "turtle." "angle" 0.0
  let widthDelta ← number ms "turtle." "line_width_delta" 0.1
  (Setup.make [x, y, z] heading angle step width widthDelta palette).mapError .setup

/-- One entry of a table of operations. -/
def operationEntry : String × Value → Except Error (String × Operation)
  | (key, v) => do
    require (isSingle key) .operationKey
    let path := s!"turtle.commands['{key}']"
    return (key, ← (operation v).mapError (.operation path))

/-- The table of operations; the customary one if it is missing. -/
def operationTable : Value → Except Error Table
  | .null => .ok Table.standard
  | v => do return ⟨← (← asObject "turtle.commands" v).mapM operationEntry⟩

/-- **Reading settings.** -/
def parse (v : Value) : Except Error Settings := do
  let ms ← asObject "root" v
  let name ← asString "name" (ms.findD "name" (.str "L-System"))
  let start ← asString "axiom" (ms.findD "axiom" (.str ""))
  require (Text.trimmed start.toList ≠ []) .emptyStart
  let depth ← asInt "iterations" (ms.findD "iterations" (.int 0))
  require (0 ≤ depth) (.negative "iterations")
  let seed ← asInt "seed" (ms.findD "seed" (.int defaultSeed))
  let turtle ← asObject "turtle" (ms.findD "turtle" (.object []))
  let rules ← ruleTexts (ms.findD "rules" (.list []))
  let setup ← turtleSetup turtle
  let table ← operationTable (turtle.findD "commands" .null)
  let settings : Settings := { name, start, rules, depth := depth.toNat, seed, setup, table }
  let _ ← settings.grammar.mapError (.grammar name)
  return settings

end Settings

end Arbor
