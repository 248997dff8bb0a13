import Arbor.Geometry.Frame
import Arbor.Symbol

/-!
# Drawings

A drawing is what a turtle leaves behind: lines, polygons, placed patches, and the mistakes it met
on the way. Each kind is kept in the order in which it came.

* `Outline` is a polygon still open: a first vertex and those after it. A `Polygon` is an outline of
  three vertices or more; its triangles form a fan around the first vertex.
* `Patch` places a named surface by the three vectors that its own axes are taken to, and an origin.
* `Mistake` is a fault of the word that was drawn, not of the drawing: the turtle notes it and goes
  on.
* `Drawing.bounds` is the box around all lines and polygons.
-/

namespace Arbor

variable {α : Type}

/-! ### Lines, polygons and patches -/

/-- **Line.** -/
structure Line (α : Type) where
  start : Vec α
  finish : Vec α
  color : Nat
  width : α
  deriving DecidableEq, Repr

/-- The length of a line. -/
def Line.length [Scalar α] (l : Line α) : α := (l.finish - l.start).norm

/-- **Outline.** The vertices of a polygon, of which there is at least one. -/
structure Outline (α : Type) where
  first : Vec α
  others : Array (Vec α) := #[]
  deriving DecidableEq, Repr

namespace Outline

/-- The vertex that came last. -/
def last (o : Outline α) : Vec α := o.others.back?.getD o.first

/-- The number of vertices. -/
def size (o : Outline α) : Nat := o.others.size + 1

/-- All vertices in their order. -/
def vertices (o : Outline α) : List (Vec α) := o.first :: o.others.toList

@[simp] theorem length_vertices (o : Outline α) : o.vertices.length = o.size := by
  simp [vertices, size]

/-- An outline with one more vertex, unless that is where the last one is. -/
def submit [Scalar α] (o : Outline α) (v : Vec α) : Outline α :=
  if o.last.coincides v then o else { o with others := o.others.push v }

end Outline

/-- **Polygon.** A closed outline with a surface. -/
structure Polygon (α : Type) where
  outline : Outline α
  color : Nat
  three_le_size : 3 ≤ outline.size

/-- The fan of triangles around the first vertex. -/
def Polygon.triangles (p : Polygon α) : List (Vec α × Vec α × Vec α) :=
  let others := p.outline.others.toList
  (others.zip others.tail).map fun (v, w) => (p.outline.first, v, w)

/-- **Patch.** A surface under the name of its symbol, with the images of its three axes and its
origin. -/
structure Patch (α : Type) where
  name : String
  scale : α
  xAxis : Vec α
  yAxis : Vec α
  zAxis : Vec α
  origin : Vec α
  deriving DecidableEq, Repr

/-- The rows of the matrix that takes a patch to its place, in homogeneous coordinates. -/
def Patch.rows [Scalar α] (p : Patch α) : List (List α) :=
  [[p.xAxis.x, p.yAxis.x, p.zAxis.x, p.origin.x],
   [p.xAxis.y, p.yAxis.y, p.zAxis.y, p.origin.y],
   [p.xAxis.z, p.yAxis.z, p.zAxis.z, p.origin.z],
   [Scalar.zero, Scalar.zero, Scalar.zero, Scalar.one]]

/-! ### Mistakes -/

/-- What can be wrong with a word that is drawn. -/
inductive Mistake.Cause (α : Type)
  /-- The length of a contracting move is too large. -/
  | overflow (base : α) (exponent : Int)
  /-- There is no state to go back to. -/
  | popEmpty
  /-- A polygon begins while another one, of so many vertices, is open. -/
  | polygonReopened (dropped : Nat)
  /-- A polygon of so many vertices is open at the end. -/
  | polygonLeftOpen (vertices : Nat)
  /-- A vertex is submitted while no polygon is open. -/
  | vertexOutside
  /-- A polygon ends while none is open. -/
  | polygonNotOpen
  /-- A polygon ends with so many vertices, fewer than three. -/
  | polygonTooSmall (vertices : Nat)
  deriving DecidableEq, Repr

/-- The kinds that the causes are of. -/
inductive Mistake.Kind
  /-- A move that cannot be made. -/
  | move
  /-- A branch that ends without having begun. -/
  | unbalanced
  /-- A polygon that is dropped because it was not ended. -/
  | unclosed
  /-- A vertex or an end that belongs to no polygon, or a polygon with too few vertices. -/
  | degenerate
  deriving DecidableEq, Repr

/-- The kind of a cause. -/
def Mistake.Cause.kind : Mistake.Cause α → Mistake.Kind
  | overflow .. => .move
  | popEmpty => .unbalanced
  | polygonReopened _ | polygonLeftOpen _ => .unclosed
  | vertexOutside | polygonNotOpen | polygonTooSmall _ => .degenerate

/-- **Mistake.** A cause, the position where it came up, and the symbol there, if it was not the
end. -/
structure Mistake (α : Type) where
  cause : Mistake.Cause α
  position : Nat
  symbol : Option (Symbol α)
  deriving DecidableEq, Repr

namespace Mistake

/-- The wording of a cause. -/
def Cause.message : Cause Float → String
  | overflow base exponent =>
    s!"contracting move {Numeral.text base}**{exponent} overflows; skipped"
  | popEmpty => "pop with an empty state stack"
  | polygonReopened n =>
    s!"polygon begun before the previous one ended; dropping {n} vertices"
  | polygonLeftOpen n => s!"polygon with {n} vertices never ended"
  | vertexOutside => "vertex submitted outside a polygon"
  | polygonNotOpen => "polygon ended without being begun"
  | polygonTooSmall n => s!"polygon has {n} vertices, needs at least 3"

/-- The wording of a mistake. -/
def message (m : Mistake Float) : String :=
  let symbol := (m.symbol.map Symbol.text).getD "None"
  s!"{m.cause.message} (symbol {m.position}: {symbol})"

end Mistake

/-! ### Drawings -/

/-- **Drawing.** -/
structure Drawing (α : Type) where
  lines : Array (Line α) := #[]
  polygons : Array (Polygon α) := #[]
  patches : Array (Patch α) := #[]
  mistakes : Array (Mistake α) := #[]

namespace Drawing

/-- A drawing without a mistake. -/
def isClean (d : Drawing α) : Bool := d.mistakes.isEmpty

/-- The end points of all lines and the vertices of all polygons. -/
def points (d : Drawing α) : List (Vec α) :=
  d.lines.toList.flatMap (fun l => [l.start, l.finish]) ++
    d.polygons.toList.flatMap fun p => p.outline.vertices

/-- There is nothing to put a box around. -/
structure NothingDrawn where
  deriving DecidableEq, Repr

/-- The wording of the error. -/
def NothingDrawn.message (_ : NothingDrawn) : String := "No drawable geometry produced."

/-- **Bounds.** The least and the greatest corner of the box around all lines and polygons. -/
def bounds [Scalar α] (d : Drawing α) : Except NothingDrawn (Vec α × Vec α) :=
  match d.points with
  | [] => .error {}
  | p :: ps =>
    .ok (ps.foldl (Vec.zipWith Scalar.lesser) p, ps.foldl (Vec.zipWith Scalar.greater) p)

end Drawing

end Arbor
