import Arbor.Geometry.Scalar

/-!
# Vectors and frames

A frame is three vectors at right angles: where the turtle heads, and what is to its left and above
it. It turns about one of its own vectors. Such a turn is written down as the new three vectors in
coordinates of the old ones (`Frame.about`), with the cosine and sine of the angle, and
`Frame.turned` takes them back to the coordinates of space. The result is scaled to length one, so
that rounding does not add up over many turns; with exact numbers the scaling does nothing.
-/

namespace Arbor

/-! ### Vectors -/

/-- **Vector.** Also a point of space. -/
structure Vec (α : Type) where
  x : α
  y : α
  z : α
  deriving DecidableEq, Repr

namespace Vec

variable {α : Type} [Scalar α]

instance : Add (Vec α) := ⟨fun v w => ⟨v.x + w.x, v.y + w.y, v.z + w.z⟩⟩

instance : Sub (Vec α) := ⟨fun v w => ⟨v.x - w.x, v.y - w.y, v.z - w.z⟩⟩

instance : Neg (Vec α) := ⟨fun v => ⟨-v.x, -v.y, -v.z⟩⟩

/-- A vector stretched by a factor. -/
def scaled (v : Vec α) (k : α) : Vec α := ⟨v.x * k, v.y * k, v.z * k⟩

/-- The product of two vectors that is at right angles to both. -/
def cross (v w : Vec α) : Vec α :=
  ⟨v.y * w.z - v.z * w.y, v.z * w.x - v.x * w.z, v.x * w.y - v.y * w.x⟩

/-- The length of a vector. -/
def norm (v : Vec α) : α := Scalar.sqrt (v.x * v.x + v.y * v.y + v.z * v.z)

/-- The vector of length one in the same direction. -/
def unit (v : Vec α) : Vec α :=
  let n := v.norm
  ⟨v.x / n, v.y / n, v.z / n⟩

/-- Whether two points have equal coordinates. -/
def coincides (v w : Vec α) : Bool := v.x == w.x && v.y == w.y && v.z == w.z

/-- What `f` makes of the coordinates of two points, one by one. -/
def zipWith (f : α → α → α) (v w : Vec α) : Vec α := ⟨f v.x w.x, f v.y w.y, f v.z w.z⟩

end Vec

/-! ### Frames -/

/-- **Frame.** -/
structure Frame (α : Type) where
  heading : Vec α
  left : Vec α
  up : Vec α
  deriving DecidableEq, Repr

/-- The vectors of a frame that a turn can be about. -/
inductive Axis
  | heading | left | up
  deriving DecidableEq, Repr

namespace Frame

variable {α : Type} [Scalar α]

/-- The frame that heads along a direction in the ground plane, given by its cosine and sine. -/
def initial (c s : α) : Frame α :=
  let heading : Vec α := ⟨c, s, Scalar.zero⟩
  let up : Vec α := ⟨Scalar.zero, Scalar.zero, Scalar.one⟩
  { heading, left := (up.cross heading).unit, up }

/-- A vector given in coordinates of the frame: along the heading, to the left and up. -/
def combine (f : Frame α) (v : Vec α) : Vec α :=
  f.heading.scaled v.x + f.left.scaled v.y + f.up.scaled v.z

/-- **Turns.** The frame after a turn about an axis by an angle of this cosine and sine, in
coordinates of the frame before. About up the heading turns to the left, about left it turns down,
and about the heading left turns up. -/
def about (axis : Axis) (c s : α) : Frame α :=
  let (zero, one) : α × α := (Scalar.zero, Scalar.one)
  match axis with
  | .up => ⟨⟨c, s, zero⟩, ⟨-s, c, zero⟩, ⟨zero, zero, one⟩⟩
  | .left => ⟨⟨c, zero, -s⟩, ⟨zero, one, zero⟩, ⟨s, zero, c⟩⟩
  | .heading => ⟨⟨one, zero, zero⟩, ⟨zero, c, s⟩, ⟨zero, -s, c⟩⟩

/-- A frame turned by a turn. -/
def turned (f turn : Frame α) : Frame α :=
  ⟨(f.combine turn.heading).unit, (f.combine turn.left).unit, (f.combine turn.up).unit⟩

end Frame

end Arbor
