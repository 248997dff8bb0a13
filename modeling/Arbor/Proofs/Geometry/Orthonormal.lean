import Mathlib.Algebra.Field.Basic
import Mathlib.Analysis.SpecialFunctions.Trigonometric.Basic
import Mathlib.Tactic.LinearCombination
import Arbor.Geometry.Frame

/-!
# Frames of exact numbers

With numbers that do not round, a frame is three vectors of length one at right angles, and the left
one is the product of the upper one and the heading, which makes the frame right-handed
(`Frame.Orthonormal`). This module shows that turns keep it so, about any of the three vectors and by
any pair of numbers on the unit circle (`Frame.Orthonormal.turned`).

The coordinates of a frame are those of space seen from elsewhere: taking them back keeps the product
of two vectors as a number (`Frame.Orthonormal.dot_combine`) and as a vector
(`Frame.Orthonormal.cross_combine`). That a turned frame is orthonormal is so a fact about the turn
alone, a frame in its own coordinates (`Frame.orthonormal_about`). Since the three vectors have length
one already, scaling them to length one does nothing (`Frame.Orthonormal.turned_eq`); and without the
scaling two turns about the same vector are one turn by the sum of the angles
(`Frame.about_composed_about`), so that a turn and the opposite one cancel
(`Frame.Orthonormal.turned_turned`).

Of the numbers no more is asked than that (`ExactScalar`). The real numbers with their cosine and sine
are such numbers.
-/

namespace Arbor

/-! ### Exact numbers -/

/-- **Exact numbers.** A field where the root of one is one, and where an angle that can be turned by
has a pair on the unit circle for its cosine and sine, and the opposite angle the opposite sine. -/
class ExactScalar (α : Type) extends Field α, Scalar α where
  sqrt_one : Scalar.sqrt (1 : α) = 1
  sq_add_sq {a c s : α} : Scalar.cosSin a = some (c, s) → c * c + s * s = 1
  cosSin_neg {a c s : α} : Scalar.cosSin a = some (c, s) → Scalar.cosSin (-a) = some (c, -s)

/-- **The real numbers** are exact. -/
noncomputable instance : ExactScalar ℝ where
  -- no program compares real numbers, so the comparisons are classical
  beq a b := open Classical in decide (a = b)
  decLt := Classical.decRel _
  sqrt := Real.sqrt
  power base exponent :=
    open Classical in
    if base = 0 ∧ exponent < 0 then .error .zeroToNegative else .ok (base ^ exponent)
  radians degrees := degrees * (Real.pi / 180)
  halfTurn := Real.pi
  cosSin angle := some (Real.cos angle, Real.sin angle)
  sqrt_one := Real.sqrt_one
  sq_add_sq {a c s} h := by
    obtain ⟨rfl, rfl⟩ := Prod.mk.inj (Option.some.inj h)
    linear_combination Real.cos_sq_add_sin_sq a
  cosSin_neg {a c s} h := by
    obtain ⟨rfl, rfl⟩ := Prod.mk.inj (Option.some.inj h)
    rw [Real.cos_neg, Real.sin_neg]

variable {α : Type} [ExactScalar α]

@[simp] theorem Scalar.zero_eq : (Scalar.zero : α) = 0 := rfl

@[simp] theorem Scalar.one_eq : (Scalar.one : α) = 1 := rfl

/-! ### Products of vectors -/

attribute [ext] Vec Frame

namespace Vec

/-- The product of two vectors as a number: zero if they are at right angles. -/
def dot (v w : Vec α) : α := v.x * w.x + v.y * w.y + v.z * w.z

/-- The product of two vectors does not depend on their order. -/
theorem dot_comm (v w : Vec α) : v.dot w = w.dot v := by
  simp only [dot]
  ring

/-- The product of two vectors is at right angles to the first. -/
theorem cross_dot_left (v w : Vec α) : (v.cross w).dot v = 0 := by
  simp only [dot, cross]
  ring

/-- The product of two vectors is at right angles to the second. -/
theorem dot_cross_right (v w : Vec α) : w.dot (v.cross w) = 0 := by
  simp only [dot, cross]
  ring

/-- Between two equal vectors the brackets do not matter. -/
theorem cross_cross_assoc (v w : Vec α) : (w.cross v).cross w = w.cross (v.cross w) := by
  simp only [cross, mk.injEq]
  refine ⟨?_, ?_, ?_⟩ <;> ring

/-- A vector at right angles to one of length one is got back from their product. -/
theorem cross_cross_eq {v w : Vec α} (hw : w.dot w = 1) (hright : w.dot v = 0) :
    (w.cross v).cross w = v := by
  simp only [dot] at hw hright
  ext
  · simp only [cross]
    linear_combination v.x * hw - w.x * hright
  · simp only [cross]
    linear_combination v.y * hw - w.y * hright
  · simp only [cross]
    linear_combination v.z * hw - w.z * hright

/-- How long a product is, by the lengths of the vectors and the angle between them. -/
theorem cross_dot_cross (v w : Vec α) :
    (v.cross w).dot (v.cross w) = v.dot v * w.dot w - v.dot w * v.dot w := by
  simp only [dot, cross]
  ring

/-- A vector of length one is its own direction. -/
theorem unit_eq_self {v : Vec α} (hv : v.dot v = 1) : v.unit = v := by
  have hnorm : v.norm = 1 := (congrArg Scalar.sqrt hv).trans ExactScalar.sqrt_one
  simp only [unit, hnorm, div_one]

end Vec

/-! ### Orthonormal frames -/

namespace Frame

/-- **Orthonormal and right-handed.** -/
structure Orthonormal (f : Frame α) : Prop where
  heading_unit : f.heading.dot f.heading = 1
  left_unit : f.left.dot f.left = 1
  up_unit : f.up.dot f.up = 1
  heading_left : f.heading.dot f.left = 0
  left_up : f.left.dot f.up = 0
  up_heading : f.up.dot f.heading = 0
  left_eq : f.left = f.up.cross f.heading

/-- What a left that is the product of up and the heading has from them: it is at right angles to both,
and of length one. -/
theorem Orthonormal.of_left_eq {f : Frame α} (hheading : f.heading.dot f.heading = 1)
    (hup : f.up.dot f.up = 1) (hright : f.up.dot f.heading = 0)
    (hleft : f.left = f.up.cross f.heading) : f.Orthonormal where
  heading_unit := hheading
  -- the length of a cross product is that of the rectangle
  left_unit := by
    rw [hleft, Vec.cross_dot_cross, hheading, hup, hright]
    ring
  up_unit := hup
  heading_left := by rw [hleft, Vec.dot_cross_right]
  left_up := by rw [hleft, Vec.cross_dot_left]
  up_heading := hright
  left_eq := hleft

/-- **The frame of the start.** -/
theorem orthonormal_initial {c s : α} (hcs : c * c + s * s = 1) : (initial c s).Orthonormal := by
  have hunit : ((⟨0, 0, 1⟩ : Vec α).cross ⟨c, s, 0⟩).dot ((⟨0, 0, 1⟩ : Vec α).cross ⟨c, s, 0⟩) = 1 := by
    simp only [Vec.dot, Vec.cross]
    linear_combination hcs
  refine .of_left_eq ?_ ?_ ?_ (Vec.unit_eq_self hunit)
  · simp only [initial, Vec.dot, Scalar.zero_eq]
    linear_combination hcs
  · simp only [initial, Vec.dot, Scalar.zero_eq, Scalar.one_eq]
    ring
  · simp only [initial, Vec.dot, Scalar.zero_eq, Scalar.one_eq]
    ring

/-- **Turns are frames**, in coordinates of the frame that is turned. -/
theorem orthonormal_about (axis : Axis) {c s : α} (hcs : c * c + s * s = 1) :
    (about axis c s).Orthonormal := by
  -- two vectors move in a circle, and the axis stays
  cases axis with
  | up =>
    refine .of_left_eq ?_ ?_ ?_ ?_
    · simpa [about, Vec.dot] using hcs
    · simp [about, Vec.dot]
    · simp [about, Vec.dot]
    · simp [about, Vec.cross]
  | left =>
    refine .of_left_eq ?_ ?_ ?_ ?_
    · simpa [about, Vec.dot] using hcs
    · simpa [about, Vec.dot, add_comm] using hcs
    · simp [about, Vec.dot, mul_comm]
    · simpa [about, Vec.cross, add_comm] using hcs.symm
  | heading =>
    refine .of_left_eq ?_ ?_ ?_ ?_
    · simp [about, Vec.dot]
    · simpa [about, Vec.dot, add_comm] using hcs
    · simp [about, Vec.dot]
    · simp [about, Vec.cross]

variable {f g : Frame α}

/-! ### Frames in coordinates of frames -/

/-- A frame given in coordinates of another, as it is in space. -/
def composed (f g : Frame α) : Frame α :=
  ⟨f.combine g.heading, f.combine g.left, f.combine g.up⟩

@[simp] theorem combine_x (f : Frame α) (v : Vec α) :
    (f.combine v).x = f.heading.x * v.x + f.left.x * v.y + f.up.x * v.z := rfl

@[simp] theorem combine_y (f : Frame α) (v : Vec α) :
    (f.combine v).y = f.heading.y * v.x + f.left.y * v.y + f.up.y * v.z := rfl

@[simp] theorem combine_z (f : Frame α) (v : Vec α) :
    (f.combine v).z = f.heading.z * v.x + f.left.z * v.y + f.up.z * v.z := rfl

/-- Two steps into space are one. -/
theorem combine_combine (f g : Frame α) (v : Vec α) :
    f.combine (g.combine v) = (f.composed g).combine v := by
  ext
  · simp only [composed, combine_x, combine_y, combine_z]
    ring
  · simp only [composed, combine_x, combine_y, combine_z]
    ring
  · simp only [composed, combine_x, combine_y, combine_z]
    ring

/-- Frames are composed in any grouping. -/
theorem composed_assoc (f g h : Frame α) :
    (f.composed g).composed h = f.composed (g.composed h) := by
  simp only [composed, combine_combine]

/-- **Turns about one vector add up.** The cosine and the sine are those of the sum of the angles. -/
theorem about_composed_about (axis : Axis) (c s c' s' : α) :
    (about axis c s).composed (about axis c' s') = about axis (c * c' - s * s') (s * c' + c * s') := by
  cases axis with
  | up | left | heading =>
    ext <;> simp [composed, about] <;> ring

/-- To turn by nothing is to stay. -/
theorem composed_about_one_zero (f : Frame α) (axis : Axis) : f.composed (about axis 1 0) = f := by
  cases axis with
  | up | left | heading => ext <;> simp [composed, about]

/-- A turn and the opposite one cancel. -/
theorem composed_composed_neg (f : Frame α) (axis : Axis) {c s : α} (hcs : c * c + s * s = 1) :
    (f.composed (about axis c s)).composed (about axis c (-s)) = f := by
  have hcos : c * c - s * -s = 1 := by linear_combination hcs
  have hsin : s * c + c * -s = 0 := by ring
  -- turning back is turning by no angle at all
  calc (f.composed (about axis c s)).composed (about axis c (-s))
    _ = f.composed (about axis (c * c - s * -s) (s * c + c * -s)) := by
      rw [composed_assoc, about_composed_about]
    _ = f.composed (about axis 1 0) := by rw [hcos, hsin]
    _ = f := composed_about_one_zero f axis

namespace Orthonormal

/-- The heading is the product of left and up. -/
theorem heading_eq (hf : f.Orthonormal) : f.heading = f.left.cross f.up := by
  rw [hf.left_eq, Vec.cross_cross_eq hf.up_unit hf.up_heading]

/-- Up is the product of the heading and left. -/
theorem up_eq (hf : f.Orthonormal) : f.up = f.heading.cross f.left := by
  have hright : f.heading.dot f.up = 0 := (Vec.dot_comm _ _).trans hf.up_heading
  rw [hf.left_eq, ← Vec.cross_cross_assoc, Vec.cross_cross_eq hf.heading_unit hright]

/-- **Lengths and angles** are the same in coordinates of the frame as in space. -/
theorem dot_combine (hf : f.Orthonormal) (v w : Vec α) :
    (f.combine v).dot (f.combine w) = v.dot w := by
  obtain ⟨hheading, hleft, hup, hheading_left, hleft_up, hup_heading, -⟩ := hf
  -- of the nine products of two of the frame's vectors, three are one and the others are zero
  simp only [Vec.dot, combine_x, combine_y, combine_z] at *
  linear_combination v.x * w.x * hheading + v.y * w.y * hleft + v.z * w.z * hup +
    (v.x * w.y + v.y * w.x) * hheading_left + (v.y * w.z + v.z * w.y) * hleft_up +
    (v.z * w.x + v.x * w.z) * hup_heading

/-- **Products** are the same, too. -/
theorem cross_combine (hf : f.Orthonormal) (v w : Vec α) :
    (f.combine v).cross (f.combine w) = f.combine (v.cross w) := by
  -- the products of the frame's own vectors are known, and the product is linear in both factors
  obtain ⟨hx, hy, hz⟩ := Vec.ext_iff.1 hf.heading_eq
  obtain ⟨lx, ly, lz⟩ := Vec.ext_iff.1 hf.left_eq
  obtain ⟨ux, uy, uz⟩ := Vec.ext_iff.1 hf.up_eq
  simp only [Vec.cross] at hx hy hz lx ly lz ux uy uz
  ext
  · simp only [Vec.cross, combine_x, combine_y, combine_z]
    linear_combination (v.z * w.y - v.y * w.z) * hx + (v.x * w.z - v.z * w.x) * lx +
      (v.y * w.x - v.x * w.y) * ux
  · simp only [Vec.cross, combine_x, combine_y, combine_z]
    linear_combination (v.z * w.y - v.y * w.z) * hy + (v.x * w.z - v.z * w.x) * ly +
      (v.y * w.x - v.x * w.y) * uy
  · simp only [Vec.cross, combine_x, combine_y, combine_z]
    linear_combination (v.z * w.y - v.y * w.z) * hz + (v.x * w.z - v.z * w.x) * lz +
      (v.y * w.x - v.x * w.y) * uz

/-- An orthonormal frame in coordinates of another is one in space. -/
theorem composed (hf : f.Orthonormal) (hg : g.Orthonormal) : (f.composed g).Orthonormal := by
  refine .of_left_eq ?_ ?_ ?_ ?_
  · exact (hf.dot_combine _ _).trans hg.heading_unit
  · exact (hf.dot_combine _ _).trans hg.up_unit
  · exact (hf.dot_combine _ _).trans hg.up_heading
  · exact (congrArg f.combine hg.left_eq).trans (hf.cross_combine _ _).symm

/-- **Scaling does nothing**: the vectors of a turned frame have length one before it. -/
theorem turned_eq (hf : f.Orthonormal) (hg : g.Orthonormal) : f.turned g = f.composed g := by
  have hfg := hf.composed hg
  exact Frame.ext (Vec.unit_eq_self hfg.heading_unit) (Vec.unit_eq_self hfg.left_unit)
    (Vec.unit_eq_self hfg.up_unit)

/-- **Turns** keep a frame orthonormal and right-handed. -/
theorem turned (hf : f.Orthonormal) (hg : g.Orthonormal) : (f.turned g).Orthonormal := by
  rw [hf.turned_eq hg]
  exact hf.composed hg

/-- **A turn and the opposite one** leave the frame as it was. -/
theorem turned_turned (hf : f.Orthonormal) (axis : Axis) {c s : α} (hcs : c * c + s * s = 1) :
    (f.turned (about axis c s)).turned (about axis c (-s)) = f := by
  have hturn := orthonormal_about axis hcs
  have hback : (about axis c (-s)).Orthonormal := orthonormal_about axis (by linear_combination hcs)
  calc (f.turned (about axis c s)).turned (about axis c (-s))
    _ = (f.turned (about axis c s)).composed (about axis c (-s)) := (hf.turned hturn).turned_eq hback
    _ = (f.composed (about axis c s)).composed (about axis c (-s)) := by rw [hf.turned_eq hturn]
    _ = f := f.composed_composed_neg axis hcs

end Orthonormal

end Frame

end Arbor
