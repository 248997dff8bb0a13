import Arbor.Proofs.Geometry.Orthonormal
import Arbor.Proofs.Turtle.Journey

/-!
# Frames on the way

A turtle starts in an orthonormal right-handed frame, and with exact numbers it never has another one
(`Journey.orthonormal`). It also goes back to poses that it has kept, so this is said of those as well.
Only turns touch the frame, and what they make of it is known from the frames themselves; the word, the
table and the numbers in the symbols do not matter.

Because the frame is orthonormal wherever a turtle gets to, scaling it after a turn does nothing there,
and a turn, a pitch or a roll with the opposite one after it (`Operation.opposite?`) leaves the turtle
exactly as it was, with all that it has kept and drawn (`Turtle.perform_opposite`).
-/

namespace Arbor

open Turtle

/-- **Opposites.** The operation that turns about the same vector the other way. -/
def Operation.opposite? : Operation → Option Operation
  | turnLeft => some turnRight
  | turnRight => some turnLeft
  | pitchDown => some pitchUp
  | pitchUp => some pitchDown
  | rollLeft => some rollRight
  | rollRight => some rollLeft
  | _ => none

variable {α : Type}

/-- **Attained.** A turtle as it is before a symbol of the word, or at the end of the run. -/
def Journey.Attains [Scalar α] (j : Journey α) (t : Turtle α) : Prop :=
  (∃ k, j.turtle k = t) ∨ (j.start.run j.setup j.table j.word).1 = t

variable [ExactScalar α] {setup : Setup α} {table : Table}

/-! ### Poses -/

/-- Moves leave the frame, and adjustments turn it by frames. -/
theorem Pose.keeps_orthonormal : Keeps setup (fun p => p.frame.Orthonormal) where
  moved _ _ hp := hp
  adjusted p q hp hq := by
    cases hq with
    | turned defined =>
      exact hp.turned (Frame.orthonormal_about _ (ExactScalar.sq_add_sq defined))
    | colored | widened => exact hp

/-- A turn of a pose and the opposite one cancel. -/
theorem Pose.turned_turned {p : Pose α} (hp : p.frame.Orthonormal) (axis : Axis) {c s : α}
    (hcs : c * c + s * s = 1) :
    (p.turned (Frame.about axis c s)).turned (Frame.about axis c (-s)) = p := by
  unfold Pose.turned
  rw [hp.turned_turned axis hcs]

/-! ### Turtles -/

namespace Turtle

variable {i i' : Nat} {s s' : Symbol α} {t : Turtle α} {o o' : Operation}

/-- A fresh turtle has the frame of the start and has kept no other. -/
theorem orthonormal_of_initial {depth : Int} (h : initial setup depth = .ok t) :
    ∀ p ∈ t.poses, p.frame.Orthonormal := by
  obtain ⟨c, s, hcosSin, rfl⟩ := cosSin_of_initial h
  intro p hp
  rw [List.mem_singleton.1 hp]
  exact Frame.orthonormal_initial (ExactScalar.sq_add_sq hcosSin)

/-- Turns about one vector by opposite angles. -/
theorem turn_turn (ht : t.pose.frame.Orthonormal) (axis : Axis) {a b c s : α}
    (ha : Scalar.cosSin a = some (c, s)) (hb : Scalar.cosSin b = some (c, -s)) :
    ∃ t', t.turn axis a = .ok t' ∧ t'.turn axis b = .ok t := by
  refine ⟨{ t with pose := t.pose.turned (Frame.about axis c s) }, ?_, ?_⟩
  · unfold turn
    rw [ha]
  · -- the sine is turned around, so the frames of both turns cancel
    unfold turn
    rw [hb]
    dsimp only
    rw [Pose.turned_turned ht axis (ExactScalar.sq_add_sq ha)]

/-- **An operation and its opposite** by the same angle leave the turtle as it was. -/
theorem perform_opposite (ht : t.pose.frame.Orthonormal) (ho : o.opposite? = some o') {c σ : α}
    (hcosSin : Scalar.cosSin (turningAngle setup s) = some (c, σ))
    (hangle : turningAngle setup s' = turningAngle setup s) :
    ∃ t', t.perform setup i s o = .ok t' ∧ t'.perform setup i' s' o' = .ok t := by
  have hneg : Scalar.cosSin (-turningAngle setup s) = some (c, -σ) :=
    ExactScalar.cosSin_neg hcosSin
  have hback : Scalar.cosSin (turningAngle setup s) = some (c, - -σ) := by rwa [neg_neg]
  -- to one side the angle is that of the symbol, to the other its opposite
  cases o with
  | turnLeft | pitchDown | rollLeft =>
    obtain rfl := Option.some.inj ho
    simp only [perform, hangle]
    exact turn_turn ht _ hcosSin hneg
  | turnRight | pitchUp | rollRight =>
    obtain rfl := Option.some.inj ho
    simp only [perform, hangle]
    exact turn_turn ht _ hneg hback
  | _ => cases ho

end Turtle

/-! ### A word -/

variable {j : Journey α}

/-- **All frames of a journey**, also after a fault and at the end of the run. -/
theorem Journey.orthonormal_of_attains {t : Turtle α} (ht : j.Attains t)
    (hstart : ∀ p ∈ j.start.poses, p.frame.Orthonormal) : ∀ p ∈ t.poses, p.frame.Orthonormal := by
  have hturtle : ∀ k, ∀ p ∈ (j.turtle k).poses, p.frame.Orthonormal :=
    fun k => poses_executeFrom Pose.keeps_orthonormal (j.word.take k) hstart
  rcases ht with ⟨k, rfl⟩ | rfl
  · exact hturtle k
  · refine run_of_close (P := fun u => ∀ p ∈ u.poses, p.frame.Orthonormal) (hturtle _) fun u n hu => ?_
    rw [close_poses]
    exact hu

/-- **Frames stay orthonormal and right-handed**, with exact numbers. Whatever the word, the table, the
setup and the depth of a turtle that starts afresh, the frames of all poses that it has or can go back
to are so, at each position and at the end of the run. To scale such a frame after a turn, by whatever
angle, does nothing, and the opposite turn gives the pose back. Two symbols that stand for a turn, a
pitch or a roll and for the opposite one, by the same angle, are executed and leave the turtle as it
was, with all that it has kept and drawn. -/
theorem Journey.orthonormal {depth : Int} (hfresh : Turtle.initial j.setup depth = .ok j.start)
    {t : Turtle α} (ht : j.Attains t) :
    (∀ p ∈ t.poses, p.frame.Orthonormal ∧
      ∀ (axis : Axis) (c s : α), c * c + s * s = 1 →
        p.frame.turned (Frame.about axis c s) = p.frame.composed (Frame.about axis c s) ∧
          (p.turned (Frame.about axis c s)).turned (Frame.about axis c (-s)) = p) ∧
      ∀ (i i' : Nat) (s s' : Symbol α) (o o' : Operation), o.opposite? = some o' →
        j.table.operation? s = some o → j.table.operation? s' = some o' →
        turningAngle j.setup s' = turningAngle j.setup s →
        (Scalar.cosSin (turningAngle j.setup s)).isSome →
        ∃ t', t.execute j.setup j.table i s = .ok t' ∧ t'.execute j.setup j.table i' s' = .ok t := by
  have hframes := orthonormal_of_attains ht (orthonormal_of_initial hfresh)
  -- all the rest is so of every orthonormal frame, however it was reached
  refine ⟨fun p hp => ⟨hframes p hp, fun axis c s hcs => ⟨?_, ?_⟩⟩, ?_⟩
  · exact (hframes p hp).turned_eq (Frame.orthonormal_about axis hcs)
  · exact Pose.turned_turned (hframes p hp) axis hcs
  · -- both symbols are executed at the pose itself, which comes before the poses it has kept
    intro i i' s s' o o' ho hs hs' hangle hdefined
    obtain ⟨⟨c, σ⟩, hcosSin⟩ := Option.isSome_iff_exists.1 hdefined
    simp only [execute_of_operation? hs, execute_of_operation? hs']
    exact perform_opposite (hframes _ List.mem_cons_self) ho hcosSin hangle

/-- Real numbers, and steps and turns that are not along the axes. A pose has been kept after a turn and
a pitch, and the turtle has rolled since; it rolls on by forty-five degrees and back. -/
theorem Journey.orthonormal_rolled :
    let plain (name : String) : Symbol ℝ := ⟨name, [], false⟩
    let setup : Setup ℝ :=
      { start := ⟨0, 0, 0⟩, heading := 30, angle := 17, step := 2, width := 1, widthDelta := 1,
        palette := none, width_nonneg := not_lt.2 zero_le_one, palette_pos := nofun }
    let word := [plain "+", plain "&", plain "[", plain "\\", plain "F", plain "]", plain "|"]
    ∃ start, Turtle.initial setup 0 = .ok start ∧
      let j : Journey ℝ := ⟨setup, .standard, word, start⟩
      (j.turtle 4).stack.length = 1 ∧ (∀ p ∈ (j.turtle 4).poses, p.frame.Orthonormal) ∧
        ∃ t, (j.turtle 4).execute setup .standard 4 ⟨"\\", [45], false⟩ = .ok t ∧
          t.execute setup .standard 5 ⟨"/", [45], false⟩ = .ok (j.turtle 4) := by
  intro plain setup word
  refine ⟨_, rfl, ?_⟩
  intro j
  obtain ⟨hframes, hback⟩ := Journey.orthonormal (j := j) rfl (.inl ⟨4, rfl⟩)
  exact ⟨rfl, fun p hp => (hframes p hp).1,
    hback 4 5 _ _ .rollLeft .rollRight rfl rfl rfl rfl rfl⟩

end Arbor
