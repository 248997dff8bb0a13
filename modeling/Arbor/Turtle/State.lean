import Arbor.Drawing.Basic
import Arbor.Turtle.Setup

/-!
# The state of a turtle

What a turtle is at one moment (`Pose`) is its place, its frame, the width and color of its lines,
and the exponent of contracting moves. A pose is a value: to push it is to keep it, and to pop it is
to be as before. Besides, a turtle has the stack of kept poses, the polygon it has open, and the
drawing so far (`Turtle`). The open polygon is not part of a pose, so a branch may close what was
opened outside it.
-/

namespace Arbor

variable {α : Type}

/-- **Pose.** -/
structure Pose (α : Type) where
  position : Vec α
  frame : Frame α
  width : α
  color : Nat
  contraction : Int
  deriving DecidableEq, Repr

/-- Why a symbol cannot be drawn at all. -/
inductive Turtle.Fault
  /-- An infinite angle has no cosine. -/
  | infiniteAngle
  /-- The length of a contracting move is a negative power of zero. -/
  | zeroToNegativePower
  deriving DecidableEq, Repr

/-- The wording of a fault. -/
def Turtle.Fault.message : Turtle.Fault → String
  | infiniteAngle => "math domain error"
  | zeroToNegativePower => "0.0 cannot be raised to a negative power"

namespace Pose

variable [Scalar α]

/-- The pose that a turtle starts in. -/
def initial (setup : Setup α) (depth : Int) : Except Turtle.Fault (Pose α) :=
  match Scalar.cosSin (Scalar.radians setup.heading) with
  | none => .error .infiniteAngle
  | some (c, s) => .ok {
      position := setup.start
      frame := Frame.initial c s
      width := setup.width
      color := 0
      contraction := depth }

/-- The pose after a move along the heading. -/
def moved (p : Pose α) (distance : α) : Pose α :=
  { p with position := p.position + p.frame.heading.scaled distance }

/-- The pose after a turn. -/
def turned (p : Pose α) (turn : Frame α) : Pose α := { p with frame := p.frame.turned turn }

/-- The pose with another color, kept within the palette. -/
def colored (p : Pose α) (palette : Option Nat) (color : Nat) : Pose α :=
  { p with color := match palette with
      | none => color
      | some n => min color (n - 1) }

/-- The pose with another width, which is zero if it would be negative. -/
def widened (p : Pose α) (width : α) : Pose α := { p with width := Scalar.clipped width }

end Pose

/-- **Turtle.** -/
structure Turtle (α : Type) where
  pose : Pose α
  stack : List (Pose α) := []
  outline : Option (Outline α) := none
  drawing : Drawing α := {}

namespace Turtle

variable [Scalar α]

/-- A fresh turtle. -/
def initial (setup : Setup α) (depth : Int) : Except Fault (Turtle α) := do
  return { pose := ← Pose.initial setup depth }

/-- A mistake put on record; nothing else changes. -/
def record (t : Turtle α) (cause : Mistake.Cause α) (position : Nat) (symbol : Option (Symbol α)) :
    Turtle α :=
  { t with drawing :=
      { t.drawing with mistakes := t.drawing.mistakes.push { cause, position, symbol } } }

/-- A move along the heading, with or without a line. -/
def move (t : Turtle α) (distance : α) (draw : Bool) : Turtle α :=
  let pose := t.pose.moved distance
  if draw then
    let line : Line α :=
      { start := t.pose.position, finish := pose.position, color := pose.color,
        width := pose.width }
    { t with pose, drawing := { t.drawing with lines := t.drawing.lines.push line } }
  else { t with pose }

/-- A turn about one of the turtle's own vectors. -/
def turn (t : Turtle α) (axis : Axis) (angle : α) : Except Fault (Turtle α) :=
  match Scalar.cosSin angle with
  | none => .error .infiniteAngle
  | some (c, s) => .ok { t with pose := t.pose.turned (Frame.about axis c s) }

/-- A patch placed where the turtle is: ahead, to the right and up. -/
def place (t : Turtle α) (s : Symbol α) : Turtle α :=
  let scale := s.params.head?.getD Scalar.one
  let frame := t.pose.frame
  let patch : Patch α :=
    { name := s.name, scale, xAxis := frame.heading.scaled scale,
      yAxis := (-frame.left).scaled scale, zAxis := frame.up.scaled scale,
      origin := t.pose.position }
  { t with drawing := { t.drawing with patches := t.drawing.patches.push patch } }

/-- The pose kept for later. -/
def push (t : Turtle α) : Turtle α := { t with stack := t.pose :: t.stack }

/-- The pose that was kept last; without one the turtle stays as it is. -/
def pop? (t : Turtle α) : Option (Turtle α) :=
  match t.stack with
  | [] => none
  | pose :: stack => some { t with pose, stack }

/-- A polygon begun at the turtle's place. -/
def openOutline (t : Turtle α) : Turtle α := { t with outline := some { first := t.pose.position } }

/-- A polygon added to the drawing. -/
def addPolygon (t : Turtle α) (p : Polygon α) : Turtle α :=
  { t with drawing := { t.drawing with polygons := t.drawing.polygons.push p } }

end Turtle

end Arbor
