import Arbor.Geometry.Frame

/-!
# How a turtle is set up

A `Setup` says where a turtle starts and what its operations do when a symbol has no parameter. Two
of its numbers are restricted: the width of a line is not negative, and a palette has a color.
`Setup.make` checks them, together with the number of coordinates of the start.
-/

namespace Arbor

/-- **Setup.** Angles are in degrees; a heading of zero is along the first axis, of ninety along the
second. -/
structure Setup (α : Type) [Scalar α] where
  start : Vec α
  heading : α
  angle : α
  step : α
  width : α
  widthDelta : α
  /-- The number of colors, where there is a bound. -/
  palette : Option Nat
  width_nonneg : ¬ width < Scalar.zero
  palette_pos : ∀ n ∈ palette, 0 < n

namespace Setup

/-- What is wrong with the numbers of a setup. -/
inductive Error
  | startCoordinates
  | width
  | palette
  deriving DecidableEq, Repr

/-- The wording of an error. -/
def Error.message : Error → String
  | startCoordinates => "start_position must have 3 coordinates"
  | width => "initial_line_width must be >= 0"
  | palette => "color_palette_size must be >= 1"

variable {α : Type} [Scalar α]

/-- The size of a palette as it was given, if it has a color. -/
def positive? (n : Int) : Option { n : Nat // 0 < n } :=
  if h : 0 < n then some ⟨n.toNat, by omega⟩ else none

/-- **Making a setup** from numbers that may be wrong. -/
def make (start : List α) (heading angle step width widthDelta : α) (palette : Option Int) :
    Except Error (Setup α) :=
  match start with
  | [x, y, z] =>
    if h : width < Scalar.zero then .error .width
    else
      let setup (palette : Option Nat) (palette_pos : ∀ n ∈ palette, 0 < n) : Setup α :=
        { start := ⟨x, y, z⟩, heading, angle, step, width, widthDelta, palette, width_nonneg := h,
          palette_pos }
      match palette with
      | none => .ok (setup none (by simp))
      | some n =>
        match positive? n with
        | none => .error .palette
        | some ⟨n, hn⟩ => .ok (setup (some n) (by simpa using hn))
  | _ => .error .startCoordinates

/-- The usual setup: at the origin along the first axis, with steps and lines of size one and no
turns. -/
def standard : Setup Float where
  start := ⟨0.0, 0.0, 0.0⟩
  heading := 0.0
  angle := 0.0
  step := 1.0
  width := 1.0
  widthDelta := 0.1
  palette := none
  width_nonneg := by decide
  palette_pos := by simp

end Setup

end Arbor
