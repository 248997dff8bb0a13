import Arbor.Proofs.Numeral.Zeros
import Arbor.Proofs.Turtle.Fault

/-!
# Drawings that break off

`Turtle.execute` gives a new turtle or a fault, so it cannot leave a turtle half changed. A turtle that is
one object, changed step by step, could: what is changed before a fault stays changed. So the operations
are written down once more as routines (`Turtle.Routine`), each a sequence of changes to one turtle, in
the order in which they are made: a move first changes the pose and then adds the line, a way back takes
a pose off the stack and then goes there, the end of a polygon first drops the outline and then looks at
it, and after the last symbol of a word a polygon that is still open is put on record and dropped.

A routine that does at once what a function says, or has its fault and leaves no trace, is called
atomic (`Turtle.Routine.Atomic`). That of a symbol is (`Turtle.Routine.atomic_execute`), because the
cosine of an angle and the power of a length are there before anything is changed. Two symbols one after
the other are not atomic: there, the first may be done and the second not. What holds of a word is that it
stops before the symbol at fault (`Turtle.Routine.run_executeFrom`), and that the end of the word is then
not reached (`Turtle.Routine.run_runWord`).

The symbols at fault are those that turn by an infinite angle and those that raise zero to a negative
exponent (`Turtle.FaultyAt`), unless the exponent is too large for a double, which is a mistake and no
fault.
-/

namespace Arbor

open Numeral (WholePowerFault wholePower)

variable {α : Type}

namespace Turtle

/-! ### Routines -/

/-- **Routine.** What is done to one turtle, change by change. A fault undoes none of the changes before
it. -/
abbrev Routine (α : Type) : Type → Type := EStateM Fault (Turtle α)

namespace Routine

/-- A mistake put on record. -/
def record (cause : Mistake.Cause α) (i : Nat) (s : Option (Symbol α)) : Routine α Unit :=
  modify fun t => t.record cause i s

section Operations

variable [Scalar α] (setup : Setup α) (table : Table) (i : Nat) (s : Symbol α)

/-- A move: first the pose is changed, then a line is added. -/
def move (distance : α) (draw : Bool) : Routine α Unit := do
  let start := (← get).pose.position
  modify fun t => { t with pose := t.pose.moved distance }
  if draw then
    modify fun t =>
      let line : Line α :=
        { start, finish := t.pose.position, color := t.pose.color, width := t.pose.width }
      { t with drawing := { t.drawing with lines := t.drawing.lines.push line } }

/-- A move by the first parameter or by the step of the setup. -/
def forward (draw contracting : Bool) : Routine α Unit := do
  let base := s.params.head?.getD setup.step
  if contracting then
    let exponent := (← get).pose.contraction
    match Scalar.power base exponent with
    | .ok distance => move distance draw
    | .error .overflow => record (.overflow base exponent) i s
    | .error .zeroToNegative => throw .zeroToNegativePower
  else move base draw

/-- A turn about one of the turtle's own vectors. -/
def turn (axis : Axis) (angle : α) : Routine α Unit :=
  match Scalar.cosSin angle with
  | none => throw .infiniteAngle
  | some (c, s) => modify fun t => { t with pose := t.pose.turned (Frame.about axis c s) }

/-- The way back: a pose is taken off the stack, and then the turtle goes there. -/
def pop : Routine α Unit := do
  match (← get).stack with
  | [] => record .popEmpty i s
  | pose :: stack =>
    modify fun t => { t with stack }
    modify fun t => { t with pose }

/-- A polygon begun. One that is open is put on record before it is dropped. -/
def beginPolygon : Routine α Unit := do
  match (← get).outline with
  | none => pure ()
  | some o => record (.polygonReopened o.size) i s
  modify openOutline

/-- A vertex submitted. -/
def submitVertex : Routine α Unit := do
  match (← get).outline with
  | none => record .vertexOutside i s
  | some o => modify fun t => { t with outline := some (o.submit t.pose.position) }

/-- An outline that is not open any more: it is drawn if it has three vertices. -/
def drawOutline (o : Outline α) : Routine α Unit :=
  if h : 3 ≤ o.size then modify fun t => t.addPolygon ⟨o, t.pose.color, h⟩
  else record (.polygonTooSmall o.size) i s

/-- A polygon ended: the outline is dropped first, and then looked at. -/
def endPolygon : Routine α Unit := do
  let outline := (← get).outline
  modify fun t => { t with outline := none }
  match outline with
  | none => record .polygonNotOpen i s
  | some o => drawOutline i s o

/-- The pose changed in its place. -/
def adjust (f : Pose α → Pose α) : Routine α Unit := modify fun t => { t with pose := f t.pose }

/-- **Operating**, change by change. -/
def perform : Operation → Routine α Unit
  | .ignore => pure ()
  | .forward draw contracting => forward setup i s draw contracting
  | .turnLeft => turn .up (turningAngle setup s)
  | .turnRight => turn .up (-turningAngle setup s)
  | .turnAround => turn .up Scalar.halfTurn
  | .pitchDown => turn .left (turningAngle setup s)
  | .pitchUp => turn .left (-turningAngle setup s)
  | .rollLeft => turn .heading (turningAngle setup s)
  | .rollRight => turn .heading (-turningAngle setup s)
  | .push => modify push
  | .pop => pop i s
  | .beginPolygon => beginPolygon i s
  | .submitVertex => submitVertex i s
  | .endPolygon => endPolygon i s
  | .nextColor => adjust fun p => p.colored setup.palette (p.color + 1)
  | .previousColor => adjust fun p => p.colored setup.palette (p.color - 1)
  | .widen => adjust fun p => p.widened (s.params.head?.getD (p.width + setup.widthDelta))
  | .narrow => adjust fun p => p.widened (s.params.head?.getD (p.width - setup.widthDelta))

/-- **Executing** one symbol, change by change. -/
def execute : Routine α Unit :=
  if s.patch then modify (place · s) else perform setup i s (table.find s.name)

end Operations

section Words

variable [Scalar α] (setup : Setup α) (table : Table)

/-- The symbols of a word executed one by one, from position `i` on. -/
def executeFrom (i : Nat) (w : List (Symbol α)) : Routine α Unit :=
  (w.zipIdx i).forM fun (s, k) => execute setup table k s

/-- **Running** a whole word. After its last symbol an open polygon is put on record and dropped. -/
def runWord (w : List (Symbol α)) : Routine α Unit := do
  executeFrom setup table 0 w
  match (← get).outline with
  | none => pure ()
  | some o =>
    record (.polygonLeftOpen o.size) w.length none
    modify fun t => { t with outline := none }

end Words

/-! ### One symbol, at once or not at all -/

/-- How a routine ends that leaves the turtle `t` alone if there is a fault. -/
def ending (t : Turtle α) : Except Fault (Turtle α) → EStateM.Result Fault (Turtle α) Unit
  | .ok t' => .ok () t'
  | .error fault => .error fault t

/-- **Atomic.** The routine does what `f` says, or has the fault that `f` has and no effect. -/
def Atomic (r : Routine α Unit) (f : Turtle α → Except Fault (Turtle α)) : Prop :=
  ∀ t, r.run t = ending t (f t)

theorem atomic_modify (f : Turtle α → Turtle α) : Atomic (modify f) fun t => .ok (f t) := fun _ => rfl

section Atomic

variable (i : Nat) (s : Symbol α)

/-- A step back: either the stack has a pose, or a mistake is put on record. -/
theorem atomic_pop : Atomic (pop i s) fun t => .ok (t.pop?.getD (t.record .popEmpty i s)) := by
  intro t
  obtain ⟨pose, stack, outline, drawing⟩ := t
  cases stack with
  | nil => rfl
  | cons => rfl

/-- A polygon begins, and one that was open goes on record. -/
theorem atomic_beginPolygon : Atomic (beginPolygon i s) fun t => .ok (t.beginPolygon i s) := by
  intro t
  obtain ⟨pose, stack, outline, drawing⟩ := t
  cases outline with
  | none => rfl
  | some => rfl

/-- The outline is dropped before it is looked at, but after that nothing is at fault. -/
theorem atomic_endPolygon : Atomic (endPolygon i s) fun t => .ok (t.endPolygon i s) := by
  intro t
  obtain ⟨pose, stack, outline, drawing⟩ := t
  cases outline with
  | none => rfl
  | some o =>
    -- what is left to do starts from a turtle whose outline is gone already
    change (drawOutline i s o).run ⟨pose, stack, none, drawing⟩ =
      ending _ (.ok (Turtle.endPolygon i s ⟨pose, stack, some o, drawing⟩))
    unfold drawOutline Turtle.endPolygon
    by_cases hsize : 3 ≤ o.size
    · simp only [dif_pos hsize]
      rfl
    · simp only [dif_neg hsize]
      rfl

variable [Scalar α] (setup : Setup α) (table : Table)

/-- A move is a change of position with a line or without. -/
theorem atomic_move (distance : α) (draw : Bool) :
    Atomic (move distance draw) fun t => .ok (t.move distance draw) := by
  intro t
  cases draw with
  | false => rfl
  | true => rfl

/-- The power is there before the turtle is moved. -/
theorem atomic_forward (draw contracting : Bool) :
    Atomic (forward setup i s draw contracting) (Turtle.forward setup draw contracting i s) := by
  intro t
  cases contracting with
  | false => exact atomic_move _ draw t
  | true =>
    simp only [Turtle.forward, forward, EStateM.run_bind, EStateM.run_get, if_true]
    -- of the three outcomes of a power one changes the turtle by a move, and one by a mistake
    cases Scalar.power (s.params.head?.getD setup.step) t.pose.contraction with
    | ok distance => exact atomic_move distance draw t
    | error fault =>
      cases fault with
      | overflow => rfl
      | zeroToNegative => rfl

/-- The cosine is there before the turtle is turned. -/
theorem atomic_turn (axis : Axis) (angle : α) :
    Atomic (turn axis angle) fun t => t.turn axis angle := by
  intro t
  unfold turn Turtle.turn
  cases Scalar.cosSin angle with
  | none => rfl
  | some => rfl

/-- A vertex is added to the polygon that is open, or goes on record. -/
theorem atomic_submitVertex : Atomic (submitVertex i s) fun t => .ok (t.submitVertex i s) := by
  intro t
  obtain ⟨pose, stack, outline, drawing⟩ := t
  cases outline with
  | none => rfl
  | some => rfl

/-- Each operation either has all of its effect or none. -/
theorem atomic_perform (o : Operation) :
    Atomic (perform setup i s o) fun t => t.perform setup i s o := by
  cases o with
  | ignore => exact fun _ => rfl
  | forward draw contracting => exact atomic_forward i s setup draw contracting
  | turnLeft | turnRight | turnAround | pitchDown | pitchUp | rollLeft | rollRight =>
    exact atomic_turn _ _
  | push | nextColor | previousColor | widen | narrow => exact atomic_modify _
  | pop => exact atomic_pop i s
  | beginPolygon => exact atomic_beginPolygon i s
  | submitVertex => exact atomic_submitVertex i s
  | endPolygon => exact atomic_endPolygon i s

/-- **A symbol is executed at once or not at all.** -/
theorem atomic_execute : Atomic (execute setup table i s) (Turtle.execute setup table i s) := by
  intro t
  unfold execute Turtle.execute
  cases s.patch with
  | true => rfl
  | false => exact atomic_perform i s setup _ t

end Atomic

/-! ### Words, as far as they come -/

section Words

variable [Scalar α] (setup : Setup α) (table : Table)

/-- How a routine ends that is described by the turtle it leaves and the fault, if there is one. -/
def leaving : Turtle α × Option Fault → EStateM.Result Fault (Turtle α) Unit
  | (t, none) => .ok () t
  | (t, some fault) => .error fault t

/-- **A word is executed up to the symbol at fault.** -/
theorem run_executeFrom (i : Nat) (w : List (Symbol α)) (t : Turtle α) :
    (executeFrom setup table i w).run t = leaving (t.executeFrom setup table i w) := by
  induction w generalizing i t with
  | nil => rfl
  | cons s w ih =>
    have hcons : executeFrom setup table i (s :: w) =
        (execute setup table i s >>= fun _ => executeFrom setup table (i + 1) w) := rfl
    rw [hcons, EStateM.run_bind, atomic_execute i s setup table t, Turtle.executeFrom]
    -- with a fault nothing after `s` is done, and `s` itself has left no trace
    cases t.execute setup table i s with
    | error fault => rfl
    | ok t₁ => exact ih (i + 1) t₁

/-- **The end of a word** is reached if no symbol is at fault. -/
theorem run_runWord (w : List (Symbol α)) (t : Turtle α) :
    (runWord setup table w).run t = leaving (t.run setup table w) := by
  rw [runWord, EStateM.run_bind, run_executeFrom, Turtle.run]
  obtain ⟨⟨pose, stack, outline, drawing⟩, fault⟩ := t.executeFrom setup table 0 w
  cases fault with
  | some fault => rfl
  | none =>
    cases outline with
    | none => rfl
    | some o => rfl

end Words

end Routine

end Turtle

/-! ### Symbols at fault -/

/-- **Zero to a negative exponent** is a fault as long as the exponent has a double. -/
theorem Numeral.wholePower_eq_zeroToNegative_iff {base : Float} {n : Int} :
    wholePower base n = .error .zeroToNegative ↔
      (base == 0.0) = true ∧ n < 0 ∧ (Numeral.ofInt n).isInf = false := by
  constructor
  · intro h
    unfold wholePower at h
    dsimp only at h
    -- the tests come in this order: the exponent as a double, zero, and what the base is
    split at h
    · cases h
    next hexponent =>
    split at h
    · cases h
    split at h
    · cases h
    split at h
    · cases h
    split at h
    · next hbase =>
      split at h
      · next hn => exact ⟨hbase, hn, Bool.eq_false_iff.2 hexponent⟩
      · cases h
    · split at h
      · cases h
      · cases h
  · rintro ⟨hbase, hn, hexponent⟩
    have hfinite := isFinite_of_magnitude_eq_zero (beq_zero_iff.1 hbase)
    have hn0 : n ≠ 0 := by omega
    simp only [wholePower, hexponent, hn0, isNaN_eq_false hfinite, isInf_eq_false hfinite, hbase, hn,
      if_true, if_false, Bool.false_eq_true]

namespace Turtle

variable {setup : Setup Float} {table : Table} {i : Nat} {s : Symbol Float} {t t' : Turtle Float}
  {axis : Axis} {angle : Float} {fault : Fault}

/-- **Symbols at fault**, for a turtle that comes to them. -/
inductive FaultyAt (setup : Setup Float) (table : Table) (t : Turtle Float) (s : Symbol Float) :
    Fault → Prop
  | infiniteAngle (infinite : InfiniteTurn setup table s) : FaultyAt setup table t s .infiniteAngle
  | zeroToNegativePower {draw : Bool} (operation : table.operation? s = some (.forward draw true))
      (zero : (s.params.head?.getD setup.step == 0.0) = true) (negative : t.pose.contraction < 0)
      (hasDouble : (Numeral.ofInt t.pose.contraction).isInf = false) :
      FaultyAt setup table t s .zeroToNegativePower

/-- Turns fail at an infinite angle and nowhere else. -/
theorem turn_eq_error_iff :
    t.turn axis angle = .error fault ↔ angle.isInf = true ∧ fault = .infiniteAngle := by
  cases hangle : angle.isInf with
  | true =>
    rw [turn_of_isInf hangle]
    exact ⟨fun h => ⟨rfl, (Except.error.inj h).symm⟩, fun h => congrArg _ h.2.symm⟩
  | false =>
    obtain ⟨t', ht'⟩ := @exists_turn t axis angle hangle
    rw [ht']
    exact iff_of_false nofun nofun

/-- A move fails just if it contracts and the power of its length does not exist. -/
theorem forward_eq_error_iff {draw contracting : Bool} :
    t.forward setup draw contracting i s = .error fault ↔
      contracting = true ∧ fault = .zeroToNegativePower ∧
        wholePower (s.params.head?.getD setup.step) t.pose.contraction = .error .zeroToNegative := by
  cases contracting with
  | false => exact iff_of_false nofun nofun
  | true =>
    have hpower : Scalar.power (s.params.head?.getD setup.step) t.pose.contraction =
        wholePower (s.params.head?.getD setup.step) t.pose.contraction := rfl
    simp only [forward, hpower, if_true, true_and]
    cases wholePower (s.params.head?.getD setup.step) t.pose.contraction with
    | ok distance => exact iff_of_false nofun nofun
    | error cause =>
      -- a power that is too large goes on record and is no fault
      cases cause with
      | overflow => exact iff_of_false nofun nofun
      | zeroToNegative =>
        exact ⟨fun h => ⟨(Except.error.inj h).symm, rfl⟩, fun h => congrArg _ h.1.symm⟩

/-- **A fault has no other causes.** -/
theorem execute_eq_error_iff :
    t.execute setup table i s = .error fault ↔ FaultyAt setup table t s fault := by
  constructor
  · intro h
    cases ho : table.operation? s with
    | none =>
      rw [execute_of_operation?_eq_none ho] at h
      cases h
    | some o =>
      rw [execute_of_operation? ho] at h
      -- six operations turn by the angle of the symbol, about one axis or another, to and fro
      have hturn : ∀ {axis : Axis} {angle : Float}, o.turnsBy = true →
          angle.isInf = (turningAngle setup s).isInf → t.turn axis angle = .error fault →
            FaultyAt setup table t s fault := by
        intro axis angle hturns hangle herror
        obtain ⟨hinfinite, rfl⟩ := turn_eq_error_iff.1 herror
        rw [hangle, isInf_turningAngle] at hinfinite
        exact .infiniteAngle ⟨⟨o, ho, hturns⟩, hinfinite⟩
      cases o with
      | forward draw contracting =>
        obtain ⟨rfl, rfl, hpower⟩ := forward_eq_error_iff.1 h
        obtain ⟨hzero, hnegative, hrange⟩ := Numeral.wholePower_eq_zeroToNegative_iff.1 hpower
        exact .zeroToNegativePower ho hzero hnegative hrange
      | turnLeft | pitchDown | rollLeft => exact hturn rfl rfl h
      | turnRight | pitchUp | rollRight => exact hturn rfl (Numeral.isInf_neg _) h
      | turnAround =>
        -- half a turn is a number of its own
        obtain ⟨t', ht'⟩ : ∃ t', t.turn .up Scalar.halfTurn = .ok t' := exists_turn isInf_halfTurn
        cases ht'.symm.trans h
      | _ => cases h
  · intro h
    cases h with
    | infiniteAngle infinite => exact execute_of_infiniteTurn infinite
    | zeroToNegativePower operation zero negative hasDouble =>
      rw [execute_of_operation? operation]
      exact forward_eq_error_iff.2
        ⟨rfl, rfl, Numeral.wholePower_eq_zeroToNegative_iff.2 ⟨zero, negative, hasDouble⟩⟩

/-! ### Where a word breaks off -/

/-- What is executed up to a symbol at fault ends there. -/
theorem executeFrom_of_error {w : List (Symbol Float)} {k : Nat} (hs : w[k]? = some s)
    (hbefore : t.executeFrom setup table i (w.take k) = (t', none))
    (hfault : t'.execute setup table (i + k) s = .error fault) :
    t.executeFrom setup table i w = (t', some fault) := by
  obtain ⟨hk, rfl⟩ := List.getElem?_eq_some_iff.1 hs
  have hpieces := executeFrom_append setup table i (w.take k) (w.drop k) t
  rw [List.take_append_drop, hbefore, List.length_take_of_le hk.le,
    List.drop_eq_getElem_cons hk] at hpieces
  rw [hpieces]
  simp only [executeFrom, hfault]

namespace Routine

/-- A word that ends well leaves the turtle at its end. -/
theorem leaving_eq_ok_iff {result : Turtle Float × Option Fault} :
    leaving result = .ok () t ↔ result = (t, none) := by
  obtain ⟨t', fault⟩ := result
  cases fault with
  | none => simp [leaving]
  | some fault => simp [leaving]

/-- A word that breaks off leaves the turtle before the fault. -/
theorem leaving_eq_error_iff {result : Turtle Float × Option Fault} :
    leaving result = .error fault t ↔ result = (t, some fault) := by
  obtain ⟨t', fault'⟩ := result
  cases fault' with
  | none => simp [leaving]
  | some fault' => simp [leaving, and_comm]

/-- A symbol is at fault as a routine just if it is at fault, and it has no effect then. -/
theorem run_execute_eq_error_iff :
    (execute setup table i s).run t = .error fault t' ↔ t' = t ∧ FaultyAt setup table t s fault := by
  rw [atomic_execute i s setup table t, ← execute_eq_error_iff (i := i)]
  cases Turtle.execute setup table i s t with
  | ok => simp [ending]
  | error => simp [ending, and_comm, eq_comm]

/-- The routine executes a piece of a word to its end just if the machine does. -/
theorem run_executeFrom_eq_ok_iff {w : List (Symbol Float)} :
    (executeFrom setup table i w).run t = .ok () t' ↔ t.executeFrom setup table i w = (t', none) := by
  rw [run_executeFrom, leaving_eq_ok_iff]

/-- A whole word has the faults that its symbols have. -/
theorem run_runWord_eq_error_iff {w : List (Symbol Float)} :
    (runWord setup table w).run t = .error fault t' ↔
      t.executeFrom setup table 0 w = (t', some fault) := by
  rw [run_runWord, leaving_eq_error_iff, Turtle.run]
  obtain ⟨t₁, fault₁⟩ := t.executeFrom setup table 0 w
  -- the end of a word, where an open polygon is dropped, is no fault
  cases fault₁ with
  | none => simp
  | some fault₁ => simp

/-- **What a drawing that breaks off leaves.** Change by change a word is run as `Turtle.run` says. It has
a fault just if one of its symbols, that at `k`, is at fault for the turtle that has executed the `k`
symbols before it one by one. This turtle is what is left, in its pose and stack as in its outline and
drawing: the symbol at fault has no effect, and what the end of a word does with an open polygon is not
done. -/
theorem run_breaks_off (setup : Setup Float) (table : Table) (w : List (Symbol Float))
    (t : Turtle Float) :
    (runWord setup table w).run t = leaving (t.run setup table w) ∧
    ∀ (fault : Fault) (t' : Turtle Float), (runWord setup table w).run t = .error fault t' ↔
      ∃ k s, w[k]? = some s ∧ (executeFrom setup table 0 (w.take k)).run t = .ok () t' ∧
        (execute setup table k s).run t' = .error fault t' ∧ FaultyAt setup table t' s fault := by
  refine ⟨run_runWord setup table w t, fun fault t' => ⟨fun h => ?_, ?_⟩⟩
  · -- the routine ends with a fault where the machine does, and the symbol there is at fault
    obtain ⟨k, s, hs, hbefore, hfault⟩ :=
      exists_of_executeFrom_eq_some (run_runWord_eq_error_iff.1 h)
    have hfaulty := execute_eq_error_iff.1 hfault
    exact ⟨k, s, hs, run_executeFrom_eq_ok_iff.2 hbefore, run_execute_eq_error_iff.2 ⟨rfl, hfaulty⟩,
      hfaulty⟩
  · rintro ⟨k, s, hs, hbefore, -, hfaulty⟩
    exact run_runWord_eq_error_iff.2
      (executeFrom_of_error hs (run_executeFrom_eq_ok_iff.1 hbefore) (execute_eq_error_iff.2 hfaulty))

/-- Two words that break off within a polygon, which stays open: a turn by an infinite angle, and a
contracting move of length zero by a turtle of negative depth. -/
theorem run_breaks_off_in_polygon :
    let plain (name : String) : Symbol Float := ⟨name, [], false⟩
    let t : Turtle Float := { pose := ⟨⟨0.0, 0.0, 0.0⟩, Frame.initial 1.0 0.0, 1.0, 0, -1⟩ }
    let t' : Turtle Float := { t with outline := some { first := t.pose.position } }
    (runWord Setup.standard .standard [plain "\x7b", ⟨"+", [Numeral.infinity], false⟩, plain "]"]).run t =
        .error .infiniteAngle t' ∧
      (runWord Setup.standard .standard [plain "\x7b", ⟨"G", [0.0], false⟩, plain "]"]).run t =
        .error .zeroToNegativePower t' := by
  intro plain t t'
  constructor
  · -- the polygon has begun when the turn is at fault
    refine ((run_breaks_off _ _ _ t).2 _ t').2 ⟨1, ⟨"+", [Numeral.infinity], false⟩, rfl, rfl, ?_⟩
    have hfaulty : FaultyAt Setup.standard .standard t' ⟨"+", [Numeral.infinity], false⟩ .infiniteAngle :=
      .infiniteAngle (by decide +kernel)
    exact ⟨run_execute_eq_error_iff.2 ⟨rfl, hfaulty⟩, hfaulty⟩
  · refine ((run_breaks_off _ _ _ t).2 _ t').2 ⟨1, ⟨"G", [0.0], false⟩, rfl, rfl, ?_⟩
    have hfaulty : FaultyAt Setup.standard .standard t' ⟨"G", [0.0], false⟩ .zeroToNegativePower :=
      .zeroToNegativePower rfl (by decide +kernel) (by decide) (by decide +kernel)
    exact ⟨run_execute_eq_error_iff.2 ⟨rfl, hfaulty⟩, hfaulty⟩

end Routine

end Turtle

end Arbor
