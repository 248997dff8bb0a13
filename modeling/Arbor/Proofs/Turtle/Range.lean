import Arbor.Proofs.Turtle.Journey

/-!
# Colors and widths

A turtle never has a color that is not in the palette, nor a line of negative width, and its exponent
is the depth that it started with (`Journey.inRange`). It does not matter by how much a symbol asks for
the color or the width to change, or to what number: an infinity, or one that is not a number at all,
is no worse than another.

A turtle also goes back to poses that it has kept, so the poses on its stack have to be in range before
it does (`Turtle.InRange`). One symbol keeps the range, since what it sets is brought back into it: a
color to the last one of the palette, a width to zero. A width that differs from itself is left as it
is, and is not below zero either. The rest of the drawing follows, because a line has the color and the
width of a pose, and a polygon its color.

Of the numbers only one thing is asked, that zero is not below itself. Doubles are such numbers.
-/

namespace Arbor

open Turtle

variable {α : Type} [Scalar α]

/-! ### The range -/

/-- The color is one of the palette, if there is a palette. Colors count from zero. -/
def Setup.HasColor (setup : Setup α) (color : Nat) : Prop := ∀ n ∈ setup.palette, color < n

/-- **A pose in range.** -/
structure Pose.InRange (setup : Setup α) (depth : Int) (p : Pose α) : Prop where
  color : setup.HasColor p.color
  width : ¬ p.width < Scalar.zero
  contraction : p.contraction = depth

/-- **A turtle in range**, with the poses that it can go back to and with all that it has drawn. -/
structure Turtle.InRange (setup : Setup α) (depth : Int) (t : Turtle α) : Prop where
  poses : ∀ p ∈ t.poses, p.InRange setup depth
  lines : ∀ l ∈ t.drawing.lines, setup.HasColor l.color ∧ ¬ l.width < Scalar.zero
  polygons : ∀ p ∈ t.drawing.polygons, setup.HasColor p.color

/-- A color that is kept within the palette is in it. -/
theorem Setup.hasColor_colored (setup : Setup α) (p : Pose α) (color : Nat) :
    setup.HasColor (p.colored setup.palette color).color := by
  intro n hn
  have hpos : 0 < n := setup.palette_pos n hn
  have hcolor : (p.colored setup.palette color).color = min color (n - 1) := by
    rw [Option.mem_def.1 hn]
    rfl
  omega

variable {setup : Setup α} {depth : Int}

/-! ### One symbol -/

section

variable (hzero : ¬ (Scalar.zero : α) < Scalar.zero)

include hzero

/-- A width that is clipped at zero is not below it. -/
theorem Scalar.not_clipped_lt (a : α) : ¬ Scalar.clipped a < Scalar.zero := by
  unfold Scalar.clipped
  split
  · exact hzero
  · assumption

/-- Moves and adjustments keep a pose in range. -/
theorem Pose.keeps_inRange : Keeps setup (Pose.InRange setup depth) where
  moved _ _ hp := ⟨hp.color, hp.width, hp.contraction⟩
  adjusted p q hp hq := by
    refine ⟨?_, ?_, hq.contraction_eq.trans hp.contraction⟩
    · cases hq with
      | turned | widened => exact hp.color
      | colored color => exact setup.hasColor_colored p color
    · -- a width that comes out below zero is clipped
      cases hq with
      | turned | colored => exact hp.width
      | widened width => exact Scalar.not_clipped_lt hzero width

namespace Turtle.InRange

variable {i : Nat} {s : Symbol α} {t t' : Turtle α} {o : Option Operation}

/-- **One symbol** keeps a turtle in range. -/
theorem step (h : t.InRange setup depth) (hstep : Step setup i s t o t') :
    t'.InRange setup depth := by
  have hpose : t.pose.InRange setup depth := h.poses _ List.mem_cons_self
  refine ⟨hstep.poses (Pose.keeps_inRange hzero) h.poses, fun l hl => ?_, fun p hp => ?_⟩
  · -- lines and polygons that are new have the color and the width of the pose
    rcases hstep.lines_cases with hlines | ⟨_, _, -, -, hlines⟩
    · exact h.lines l (hlines ▸ hl)
    · rw [hlines] at hl
      rcases Array.mem_push.1 hl with hl | rfl
      · exact h.lines l hl
      · exact ⟨hpose.color, hpose.width⟩
  · rcases hstep.polygons_cases with hpolygons | ⟨q, hcolor, hpolygons⟩
    · exact h.polygons p (hpolygons ▸ hp)
    · rw [hpolygons] at hp
      rcases Array.mem_push.1 hp with hp | rfl
      · exact h.polygons p hp
      · exact hcolor ▸ hpose.color

end Turtle.InRange

/-! ### A word -/

variable {j : Journey α}

/-- **A turtle on its way** is in range at each position, also after a fault. -/
theorem Journey.inRange_turtle (h : j.start.InRange j.setup depth) (k : Nat) :
    (j.turtle k).InRange j.setup depth := by
  induction k with
  | zero => exact h
  | succ k ih =>
    by_cases hk : j.Executes k
    · exact ih.step hzero (step_of_executes hk.1 hk)
    · rw [turtle_succ_of_not_executes hk]
      exact ih

end

namespace Turtle

/-- A fresh turtle is in range, since its setup is. -/
theorem inRange_of_initial {t : Turtle α} (h : initial setup depth = .ok t) :
    t.InRange setup depth := by
  obtain ⟨frame, rfl⟩ := exists_of_initial h
  refine ⟨fun p hp => ?_, nofun, nofun⟩
  rw [List.mem_singleton.1 hp]
  exact ⟨setup.palette_pos, setup.width_nonneg, rfl⟩

/-- The end of a word changes nothing that has a range. -/
theorem InRange.close {t : Turtle α} (h : t.InRange setup depth) (n : Nat) :
    (t.close n).InRange setup depth := by
  refine ⟨?_, ?_, ?_⟩
  · rw [close_poses]
    exact h.poses
  · rw [close_lines]
    exact h.lines
  · rw [close_polygons]
    exact h.polygons

end Turtle

/-- **Colors and widths are in range**, with doubles for numbers. Whatever the word, the table, the
depth and the numbers of a turtle that starts afresh, at each position and at the end of a run all poses
that it has or can go back to have a color of the palette, a width that is not negative and the depth
for their exponent, and the lines and polygons drawn so far have such colors and widths. -/
theorem Journey.inRange {j : Journey Float} {depth : Int}
    (hfresh : Turtle.initial j.setup depth = .ok j.start) :
    (∀ k, (j.turtle k).InRange j.setup depth) ∧
      (j.start.run j.setup j.table j.word).1.InRange j.setup depth := by
  have hzero : ¬ (Scalar.zero : Float) < Scalar.zero := by decide
  have hturtle : ∀ k, (j.turtle k).InRange j.setup depth :=
    inRange_turtle hzero (inRange_of_initial hfresh)
  exact ⟨hturtle, run_of_close (hturtle _) fun _ n ht => ht.close n⟩

/-- A width below zero and one that is not a number, with three steps through a palette of two colors,
and a branch. -/
theorem Journey.inRange_overridden :
    let plain (name : String) : Symbol Float := ⟨name, [], false⟩
    let setup : Setup Float :=
      { Setup.standard with
        palette := some 2, palette_pos := fun _ hn => Option.some.inj hn ▸ Nat.zero_lt_two }
    let word := [⟨"!", [-5.0], false⟩, plain "\x27", plain "\x27", plain "\x27", plain "F", plain "[",
      ⟨"#", [0.0 / 0.0], false⟩, plain "F", plain "]"]
    ∃ start, Turtle.initial setup 3 = .ok start ∧
      let j : Journey Float := ⟨setup, .standard, word, start⟩
      (j.turtle 5).pose.width = 0.0 ∧ (j.turtle 5).pose.color = 1 ∧
        (j.turtle 8).pose.width.isNaN = true ∧ (j.turtle 8).stack.length = 1 ∧
        (j.turtle 8).drawing.lines.size = 2 ∧ (j.turtle 8).InRange setup 3 ∧
        (j.start.run j.setup j.table j.word).1.InRange setup 3 := by
  intro plain setup word
  -- the angle of the start is not infinite, and no more than that has to be known of it
  have hcosSin : Scalar.cosSin (Scalar.radians setup.heading) =
      some ((Scalar.radians setup.heading).cos, (Scalar.radians setup.heading).sin) :=
    if_neg (by decide +kernel)
  have hfresh : Turtle.initial setup 3 = .ok
      { pose := ⟨setup.start, .initial (Scalar.radians setup.heading).cos
        (Scalar.radians setup.heading).sin, setup.width, 0, 3⟩ } := by
    rw [Turtle.initial, Pose.initial, hcosSin]
    rfl
  refine ⟨_, hfresh, ?_⟩
  intro j
  obtain ⟨hturtle, hrun⟩ := Journey.inRange (j := j) hfresh
  exact ⟨by decide +kernel, by decide +kernel, by decide +kernel, by decide +kernel,
    by decide +kernel, hturtle 8, hrun⟩

end Arbor
