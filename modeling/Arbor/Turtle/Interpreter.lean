import Arbor.Turtle.Operation
import Arbor.Turtle.State

/-!
# Drawing a word

A turtle reads a word symbol by symbol and does what the table says for each name
(`Turtle.execute`). The first parameter of a symbol takes the place of the step, angle or width of
the setup; a symbol with a patch mark places a patch, whatever its name. Mistakes in the word are
put on record under their position, and the turtle goes on. Only two faults end a drawing
(`Turtle.Fault`); the turtle is then as it was before the symbol at fault.

`Turtle.executeFrom` reads a word from a position on, and `Turtle.run` reads a whole one and closes
it: a polygon that is still open then is put on record and dropped.
-/

namespace Arbor.Turtle

variable {α : Type} [Scalar α]

/-- A move, by the first parameter or by the step of the setup. -/
def forward (setup : Setup α) (draw contracting : Bool) (i : Nat) (s : Symbol α) (t : Turtle α) :
    Except Fault (Turtle α) :=
  let base := s.params.head?.getD setup.step
  if contracting then
    match Scalar.power base t.pose.contraction with
    | .ok distance => .ok (t.move distance draw)
    | .error .overflow => .ok (t.record (.overflow base t.pose.contraction) i s)
    | .error .zeroToNegative => .error .zeroToNegativePower
  else .ok (t.move base draw)

/-- The angle of a turn, by the first parameter or by the angle of the setup. -/
def turningAngle (setup : Setup α) (s : Symbol α) : α :=
  Scalar.radians (s.params.head?.getD setup.angle)

/-- A vertex submitted to the open polygon. -/
def submitVertex (i : Nat) (s : Symbol α) (t : Turtle α) : Turtle α :=
  match t.outline with
  | none => t.record .vertexOutside i s
  | some o => { t with outline := some (o.submit t.pose.position) }

/-- The open polygon closed and, if it has three vertices, drawn. -/
def endPolygon (i : Nat) (s : Symbol α) (t : Turtle α) : Turtle α :=
  match t.outline with
  | none => t.record .polygonNotOpen i s
  | some o =>
    let closed := { t with outline := none }
    if h : 3 ≤ o.size then
      closed.addPolygon { outline := o, color := t.pose.color, three_le_size := h }
    else closed.record (.polygonTooSmall o.size) i s

/-- A polygon begun; one that is open is dropped, which is a mistake. -/
def beginPolygon (i : Nat) (s : Symbol α) (t : Turtle α) : Turtle α :=
  match t.outline with
  | none => t.openOutline
  | some o => (t.record (.polygonReopened o.size) i s).openOutline

/-- **Operating.** What an operation does at a symbol of position `i`. -/
def perform (setup : Setup α) (i : Nat) (s : Symbol α) (t : Turtle α) :
    Operation → Except Fault (Turtle α)
  | .ignore => .ok t
  | .forward draw contracting => t.forward setup draw contracting i s
  | .turnLeft => t.turn .up (turningAngle setup s)
  | .turnRight => t.turn .up (-turningAngle setup s)
  | .turnAround => t.turn .up Scalar.halfTurn
  | .pitchDown => t.turn .left (turningAngle setup s)
  | .pitchUp => t.turn .left (-turningAngle setup s)
  | .rollLeft => t.turn .heading (turningAngle setup s)
  | .rollRight => t.turn .heading (-turningAngle setup s)
  | .push => .ok t.push
  | .pop => .ok (t.pop?.getD (t.record .popEmpty i s))
  | .beginPolygon => .ok (t.beginPolygon i s)
  | .submitVertex => .ok (t.submitVertex i s)
  | .endPolygon => .ok (t.endPolygon i s)
  | .nextColor => .ok { t with pose := t.pose.colored setup.palette (t.pose.color + 1) }
  | .previousColor => .ok { t with pose := t.pose.colored setup.palette (t.pose.color - 1) }
  | .widen =>
    .ok { t with pose := t.pose.widened (s.params.head?.getD (t.pose.width + setup.widthDelta)) }
  | .narrow =>
    .ok { t with pose := t.pose.widened (s.params.head?.getD (t.pose.width - setup.widthDelta)) }

/-- **Executing** one symbol at position `i`. -/
def execute (setup : Setup α) (table : Table) (i : Nat) (s : Symbol α) (t : Turtle α) :
    Except Fault (Turtle α) :=
  if s.patch then .ok (t.place s) else t.perform setup i s (table.find s.name)

/-- A word executed from position `i` on: the turtle after its last symbol, or before the one at
fault, and the fault. -/
def executeFrom (setup : Setup α) (table : Table) (i : Nat) :
    List (Symbol α) → Turtle α → Turtle α × Option Fault
  | [], t => (t, none)
  | s :: rest, t =>
    match t.execute setup table i s with
    | .error fault => (t, some fault)
    | .ok t => executeFrom setup table (i + 1) rest t

@[simp] theorem executeFrom_nil (setup : Setup α) (table : Table) (i : Nat) (t : Turtle α) :
    executeFrom setup table i [] t = (t, none) := rfl

/-- A word is executed in pieces as it is at once; a fault in the first piece is the end. -/
theorem executeFrom_append (setup : Setup α) (table : Table) (i : Nat) (u v : List (Symbol α))
    (t : Turtle α) :
    executeFrom setup table i (u ++ v) t =
      match executeFrom setup table i u t with
      | (t, none) => executeFrom setup table (i + u.length) v t
      | (t, some fault) => (t, some fault) := by
  induction u generalizing i t with
  | nil => rfl
  | cons s u ih =>
    simp only [List.cons_append, executeFrom]
    cases t.execute setup table i s with
    | error fault => rfl
    | ok t => simp only [ih, List.length_cons, Nat.add_assoc, Nat.add_comm 1]

/-- The turtle at the end of a word of length `n`: an open polygon is dropped, which is a
mistake. -/
def close (n : Nat) (t : Turtle α) : Turtle α :=
  match t.outline with
  | none => t
  | some o => { t.record (.polygonLeftOpen o.size) n none with outline := none }

/-- **Running** a whole word. After a fault nothing is closed. -/
def run (setup : Setup α) (table : Table) (w : List (Symbol α)) (t : Turtle α) :
    Turtle α × Option Fault :=
  match t.executeFrom setup table 0 w with
  | (t, none) => (t.close w.length, none)
  | (t, some fault) => (t, some fault)

/-- **Interpreting.** The drawing of a word by a fresh turtle. -/
def interpret (setup : Setup α) (table : Table) (depth : Int) (w : List (Symbol α)) :
    Except Fault (Drawing α) := do
  let t ← initial setup depth
  match t.run setup table w with
  | (t, none) => return t.drawing
  | (_, some fault) => throw fault

end Arbor.Turtle
