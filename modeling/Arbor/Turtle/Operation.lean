/-!
# Turtle operations

What a symbol makes the turtle do is settled by a table from names to operations, and no name has a
meaning of its own. A name that is not in the table is ignored. `Table.standard` holds the customary
assignments.
-/

namespace Arbor

/-- **Operation.** -/
inductive Operation
  | ignore
  /-- A move along the heading, with or without a line. A contracting one is as long as a power. -/
  | forward (draw contracting : Bool)
  | turnRight | turnLeft | turnAround
  | pitchDown | pitchUp
  | rollLeft | rollRight
  | push | pop
  | beginPolygon | endPolygon | submitVertex
  | nextColor | previousColor
  | widen | narrow
  deriving DecidableEq, Repr

namespace Operation

/-- A move that draws a line of the full length. -/
def draw : Operation := .forward true false

/-- The names of operations in settings, in the order in which they are listed; a move has one name
whatever its options. -/
def named : List (String × Operation) :=
  [("ignore", ignore), ("forward", draw), ("turn_right", turnRight), ("turn_left", turnLeft),
   ("turn_around", turnAround), ("pitch_down", pitchDown), ("pitch_up", pitchUp),
   ("roll_left", rollLeft), ("roll_right", rollRight), ("push", push), ("pop", pop),
   ("begin_polygon", beginPolygon), ("end_polygon", endPolygon), ("submit_vertex", submitVertex),
   ("incr_color", nextColor), ("decr_color", previousColor), ("incr_width", widen),
   ("decr_width", narrow)]

/-- The name of an operation in settings. -/
def kind : Operation → String
  | ignore => "ignore"
  | forward _ _ => "forward"
  | turnRight => "turn_right"
  | turnLeft => "turn_left"
  | turnAround => "turn_around"
  | pitchDown => "pitch_down"
  | pitchUp => "pitch_up"
  | rollLeft => "roll_left"
  | rollRight => "roll_right"
  | push => "push"
  | pop => "pop"
  | beginPolygon => "begin_polygon"
  | endPolygon => "end_polygon"
  | submitVertex => "submit_vertex"
  | nextColor => "incr_color"
  | previousColor => "decr_color"
  | widen => "incr_width"
  | narrow => "decr_width"

/-- Whether a move leaves a line; other operations have this option set. -/
def draws : Operation → Bool
  | forward draw _ => draw
  | _ => true

/-- Whether a move is contracting. -/
def isContracting : Operation → Bool
  | forward _ contracting => contracting
  | _ => false

/-- The text of an operation: its name, and the options of a move that differ from the usual. -/
def text (o : Operation) : String :=
  let options := (if o.draws then [] else ["no-draw"]) ++
    if o.isContracting then ["contracting"] else []
  o.kind ++ if options = [] then "" else "(" ++ ", ".intercalate options ++ ")"

end Operation

/-! ### Tables -/

/-- **Table.** From the names of symbols to operations; of two entries for a name the first
counts. -/
structure Table where
  entries : List (String × Operation)
  deriving DecidableEq, Repr

namespace Table

/-- What a symbol of this name makes the turtle do. -/
def find (t : Table) (name : String) : Operation := (t.entries.lookup name).getD .ignore

/-- A table with another operation for a name. -/
def set (t : Table) (name : String) (o : Operation) : Table :=
  ⟨(name, o) :: t.entries.filter (·.1 ≠ name)⟩

/-- Whether two tables have the same entries, in whatever order. -/
def sameAs (t u : Table) : Bool :=
  t.entries.all (fun (name, o) => u.entries.lookup name = some o) &&
    u.entries.all fun (name, o) => t.entries.lookup name = some o

/-- The customary table. -/
def standard : Table where
  entries :=
    [("F", .forward true false), ("f", .forward false false), ("G", .forward true true),
     ("+", .turnLeft), ("-", .turnRight), ("|", .turnAround), ("&", .pitchDown), ("^", .pitchUp),
     ("\\", .rollLeft), ("/", .rollRight), ("[", .push), ("]", .pop), ("\x7b", .beginPolygon),
     ("\x7d", .endPolygon), (".", .submitVertex), ("\x27", .nextColor), ("\x60", .previousColor),
     ("#", .widen), ("!", .narrow)]

end Table

end Arbor
