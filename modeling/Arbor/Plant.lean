import Arbor.Derivation.Journal
import Arbor.Random.Twister
import Arbor.Settings.Basic
import Arbor.Turtle.Interpreter

/-!
# Plants

A plant is a grammar that has grown to some depth: the word that so many steps derive from the start
word, together with what is needed to grow it anew and to draw it. Growing always begins at the
start word with draws from the plant's own seed, so the same depth gives the same word. Word and
depth change together or not at all: a plant that cannot be grown to a depth stays as it was.
Drawing a plant changes nothing, so it may be drawn again with another setup. `Plant.respond` is the
plant as it is asked for one thing after the other.
-/

namespace Arbor

/-- **Plant.** -/
structure Plant where
  grammar : Grammar
  setup : Setup Float := Setup.standard
  table : Table := Table.standard
  seed : Int := defaultSeed
  word : Word := grammar.start
  depth : Nat := 0

namespace Plant

/-- The plant that settings describe, before it grows. -/
def ofSettings (c : Settings) : Except ReadError Plant := do
  return { grammar := ← c.grammar, setup := c.setup, table := c.table, seed := c.seed }

/-- **Growing** to a depth, from the start word. -/
def grow (p : Plant) (depth : Int) : Except DeriveError Plant := do
  let (word, _) ← p.grammar.iterate none depth (Twister.ofSeed p.seed)
  return { p with word, depth := depth.toNat }

/-- **Drawing** the plant, or another word in its place. -/
def draw (p : Plant) (word : Option Word) : Except Turtle.Fault (Drawing Float) :=
  Turtle.interpret p.setup p.table p.depth (word.getD p.word)

/-! ### Requests -/

/-- **Request** to a plant. -/
inductive Request
  /-- The plant is to grow to a depth. -/
  | grow (depth : Int)
  /-- The plant is to be drawn, or another word in its place. -/
  | draw (word : Option Word)

/-- **Reply** to a request: what was asked for, or why it cannot be had. -/
inductive Reply
  | grown (outcome : Except DeriveError Word)
  | drawn (outcome : Except Turtle.Fault (Drawing Float))

/-- **Responding** to a request, and keeping the plant for the next one. -/
def respond : Request → StateM Plant Reply
  | .grow depth => do
    match (← get).grow depth with
    | .ok p =>
      set p
      return .grown (.ok p.word)
    | .error e => return .grown (.error e)
  | .draw word => return .drawn ((← get).draw word)

/-! ### Changes -/

/-- A plant with one more rule; the word stays as it is. -/
def addRule (p : Plant) (r : Rule) : Plant := { p with grammar := p.grammar.insert r }

/-- A plant with another operation for a name. -/
def setOperation (p : Plant) (name : String) (o : Operation) : Plant :=
  { p with table := p.table.set name o }

/-! ### A whole run -/

/-- Why a run fails. -/
inductive RunError
  | settings (cause : Settings.Error)
  | derive (cause : DeriveError)
  | draw (cause : Turtle.Fault)

/-- **A whole run**: settings are read, the plant is grown to their depth and drawn. -/
def run (v : Value) : Except RunError (Word × Drawing Float) := do
  let settings ← (Settings.parse v).mapError .settings
  let plant ← (ofSettings settings).mapError fun e => .settings (.grammar settings.name e)
  let plant ← (plant.grow settings.depth).mapError .derive
  return (plant.word, ← (plant.draw none).mapError .draw)

end Plant

end Arbor
