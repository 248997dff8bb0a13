import Arbor.Turtle.Interpreter

/-!
# One symbol

What a turtle does at one symbol is said here once, for all proofs about words. `Step` has a
constructor for each thing that can happen, with the condition under which it does; an operation that
only turns, colors or widens is one case of them, since it changes the pose and leaves the turtle in
its place (`Pose.Adjusted`). `step_of_execute` opens the program, and nothing after it does.

From the cases follow the lemmas that say what a symbol leaves as it was, by the operation that it
stands for:

* only `push` and `pop` touch the stack (`Step.stack_eq`), and every pose that there is after a symbol
  comes from one before it (`Step.poses`);
* only the three operations of polygons touch the outline (`Step.outline_eq`), and only one of them
  the polygons (`Step.polygons_eq`);
* a line is added by a move that is made, and by nothing else (`Step.lines_cases`); what is added has
  the color and width in force (`Step.polygons_cases`);
* a symbol puts at most one mistake on record, under its own position and of a kind that its
  operation can be at fault for (`Step.mistakes_cases`).
-/

namespace Arbor

variable {α : Type}

/-! ### Operations -/

/-- **The operation of a symbol.** One with a patch mark has none, whatever its name. -/
def Table.operation? (table : Table) (s : Symbol α) : Option Operation :=
  if s.patch then none else some (table.find s.name)

/-- How many symbols of a word stand for an operation. -/
def Table.count (table : Table) (o : Operation) (w : List (Symbol α)) : Nat :=
  w.countP fun s => table.operation? s = some o

/-- Operations that change the pose but not the place of the turtle. -/
def Operation.adjusts : Operation → Bool
  | turnRight | turnLeft | turnAround | pitchDown | pitchUp | rollLeft | rollRight => true
  | nextColor | previousColor | widen | narrow => true
  | _ => false

/-- Whether an operation can be at fault for mistakes of a kind. -/
def Mistake.Kind.concerns : Mistake.Kind → Operation → Bool
  | move, .forward .. => true
  | unbalanced, .pop => true
  | unclosed, .beginPolygon => true
  | degenerate, .submitVertex | degenerate, .endPolygon => true
  | _, _ => false

/-! ### What leaves other things as they were -/

namespace Turtle

section Record

variable (t : Turtle α) (cause : Mistake.Cause α) (i : Nat) (s : Option (Symbol α))

/-- A mistake put on record changes neither the pose nor the stack nor an open outline. -/
@[simp] theorem record_pose : (t.record cause i s).pose = t.pose := rfl

@[simp] theorem record_stack : (t.record cause i s).stack = t.stack := rfl

@[simp] theorem record_outline : (t.record cause i s).outline = t.outline := rfl

/-- Of the drawing it leaves all but the mistakes as it was. -/
@[simp] theorem record_polygons :
    (t.record cause i s).drawing.polygons = t.drawing.polygons := rfl

/-- The mistake comes last on the record, with its position and its symbol. -/
@[simp] theorem record_mistakes :
    (t.record cause i s).drawing.mistakes = t.drawing.mistakes.push ⟨cause, i, s⟩ := rfl

end Record

section Outline

variable (t : Turtle α) (p : Polygon α)

/-- A polygon begins with one vertex, where the turtle is. -/
@[simp] theorem openOutline_outline : t.openOutline.outline = some { first := t.pose.position } := rfl

@[simp] theorem openOutline_drawing : t.openOutline.drawing = t.drawing := rfl

/-- What is open is not closed by adding a polygon; `endPolygon` does that on its own. -/
@[simp] theorem addPolygon_outline : (t.addPolygon p).outline = t.outline := rfl

@[simp] theorem addPolygon_polygons :
    (t.addPolygon p).drawing.polygons = t.drawing.polygons.push p := rfl

@[simp] theorem addPolygon_mistakes :
    (t.addPolygon p).drawing.mistakes = t.drawing.mistakes := rfl

end Outline

section Move

variable [Scalar α] (t : Turtle α) (distance : α) (draw : Bool)

/-- Whether a line is drawn or not, the pose after a move is the same. -/
@[simp] theorem move_pose : (t.move distance draw).pose = t.pose.moved distance := by
  cases draw <;> rfl

@[simp] theorem move_stack : (t.move distance draw).stack = t.stack := by
  cases draw <;> rfl

/-- Moves do not touch the open polygon: its vertices are submitted by symbols of their own. -/
@[simp] theorem move_outline : (t.move distance draw).outline = t.outline := by
  cases draw <;> rfl

/-- Moves add no polygon. -/
@[simp] theorem move_polygons :
    (t.move distance draw).drawing.polygons = t.drawing.polygons := by
  cases draw <;> rfl

/-- Moves put nothing on record. -/
@[simp] theorem move_mistakes :
    (t.move distance draw).drawing.mistakes = t.drawing.mistakes := by
  cases draw <;> rfl

end Move

end Turtle

variable [Scalar α]

/-! ### The cases -/

/-- **Adjustment.** A change of the pose in its place. -/
inductive Pose.Adjusted (setup : Setup α) (p : Pose α) : Pose α → Prop
  | turned {axis : Axis} {angle c s : α} (defined : Scalar.cosSin angle = some (c, s)) :
      Adjusted setup p (p.turned (Frame.about axis c s))
  | colored (color : Nat) : Adjusted setup p (p.colored setup.palette color)
  | widened (width : α) : Adjusted setup p (p.widened width)

namespace Pose.Adjusted

variable {setup : Setup α} {p q : Pose α}

/-- An adjustment leaves the turtle in its place. -/
theorem position_eq (h : p.Adjusted setup q) : q.position = p.position := by
  cases h with
  | turned | colored | widened => rfl

/-- No adjustment touches the exponent of contracting moves. -/
theorem contraction_eq (h : p.Adjusted setup q) : q.contraction = p.contraction := by
  cases h with
  | turned | colored | widened => rfl

end Pose.Adjusted

namespace Turtle

/-- How far a move goes. -/
def stride (setup : Setup α) (contracting : Bool) (s : Symbol α) (t : Turtle α) :
    Except Numeral.WholePowerFault α :=
  let base := s.params.head?.getD setup.step
  if contracting then Scalar.power base t.pose.contraction else .ok base

/-- **Step.** What a symbol at position `i`, with its operation, makes of a turtle. -/
inductive Step (setup : Setup α) (i : Nat) (s : Symbol α) (t : Turtle α) :
    Option Operation → Turtle α → Prop
  | place : Step setup i s t none (t.place s)
  | ignore : Step setup i s t (some .ignore) t
  | move {draw contracting : Bool} {distance : α}
      (length : t.stride setup contracting s = .ok distance) :
      Step setup i s t (some (.forward draw contracting)) (t.move distance draw)
  | overflow {draw contracting : Bool} (length : t.stride setup contracting s = .error .overflow) :
      Step setup i s t (some (.forward draw contracting))
        (t.record (.overflow (s.params.head?.getD setup.step) t.pose.contraction) i s)
  | adjust {o : Operation} {pose : Pose α} (operation : o.adjusts = true)
      (adjusted : t.pose.Adjusted setup pose) : Step setup i s t (some o) { t with pose }
  | push : Step setup i s t (some .push) t.push
  | pop {pose : Pose α} {stack : List (Pose α)} (kept : t.stack = pose :: stack) :
      Step setup i s t (some .pop) { t with pose, stack }
  | popEmpty (empty : t.stack = []) : Step setup i s t (some .pop) (t.record .popEmpty i s)
  | begins (closed : t.outline = none) : Step setup i s t (some .beginPolygon) t.openOutline
  | begins_again {o : Outline α} (isOpen : t.outline = some o) :
      Step setup i s t (some .beginPolygon) (t.record (.polygonReopened o.size) i s).openOutline
  | submits {o : Outline α} (isOpen : t.outline = some o) :
      Step setup i s t (some .submitVertex) { t with outline := some (o.submit t.pose.position) }
  | submits_outside (closed : t.outline = none) :
      Step setup i s t (some .submitVertex) (t.record .vertexOutside i s)
  | ends {o : Outline α} (isOpen : t.outline = some o) (large : 3 ≤ o.size) :
      Step setup i s t (some .endPolygon)
        ({ t with outline := none }.addPolygon ⟨o, t.pose.color, large⟩)
  | ends_small {o : Outline α} (isOpen : t.outline = some o) (small : o.size < 3) :
      Step setup i s t (some .endPolygon)
        ({ t with outline := none }.record (.polygonTooSmall o.size) i s)
  | ends_none (closed : t.outline = none) :
      Step setup i s t (some .endPolygon) (t.record .polygonNotOpen i s)

variable {setup : Setup α} {table : Table} {i : Nat} {s : Symbol α} {t t' : Turtle α}
  {o : Option Operation}

/-- A turn that can be made is an adjustment; the only way to fail is an angle without a cosine. -/
theorem step_of_turn {o : Operation} {axis : Axis} {angle : α} (ho : o.adjusts = true)
    (h : t.turn axis angle = .ok t') : Step setup i s t (some o) t' := by
  unfold turn at h
  split at h
  · cases h
  · next c s' hcs =>
    obtain rfl := Except.ok.inj h
    exact .adjust ho (.turned hcs)

/-- A move is made, or its length overflows and it is put on record. The third outcome of a power, a
negative power of zero, is a fault and no step. -/
theorem step_of_forward {draw contracting : Bool}
    (h : t.forward setup draw contracting i s = .ok t') :
    Step setup i s t (some (.forward draw contracting)) t' := by
  cases contracting with
  -- without contraction the length is the base as it stands, so there is nothing to fail
  | false =>
    obtain rfl := Except.ok.inj h
    exact .move rfl
  | true =>
    -- with contraction the three outcomes of the power are the two cases of a move and the fault
    unfold forward at h
    cases hpower : Scalar.power (s.params.head?.getD setup.step) t.pose.contraction with
    | ok distance =>
      simp only [hpower, if_true] at h
      obtain rfl := Except.ok.inj h
      exact .move hpower
    | error fault =>
      cases fault with
      | overflow =>
        simp only [hpower, if_true] at h
        obtain rfl := Except.ok.inj h
        exact .overflow hpower
      | zeroToNegative =>
        simp only [hpower, if_true] at h
        cases h

/-- To go back is a step, with or without a pose to go back to. -/
theorem step_pop : Step setup i s t (some .pop) (t.pop?.getD (t.record .popEmpty i s)) := by
  unfold pop?
  split
  · next hempty => exact .popEmpty hempty
  · next pose stack hkept => exact .pop hkept

/-- To begin a polygon is a step, also where one is still open. -/
theorem step_beginPolygon : Step setup i s t (some .beginPolygon) (t.beginPolygon i s) := by
  unfold beginPolygon
  split
  · next hclosed => exact .begins hclosed
  · next o hopen => exact .begins_again hopen

/-- To submit a vertex is a step, also outside a polygon. -/
theorem step_submitVertex : Step setup i s t (some .submitVertex) (t.submitVertex i s) := by
  unfold submitVertex
  split
  · next hclosed => exact .submits_outside hclosed
  · next o hopen => exact .submits hopen

/-- To end a polygon is a step, with three vertices, with fewer, and with no polygon open. -/
theorem step_endPolygon : Step setup i s t (some .endPolygon) (t.endPolygon i s) := by
  unfold endPolygon
  split
  · next hclosed => exact .ends_none hclosed
  · next o hopen =>
    -- the outline is closed in either case; its size only decides whether it is drawn
    dsimp only
    split
    · next hlarge => exact .ends hopen hlarge
    · next hsmall => exact .ends_small hopen (Nat.not_le.1 hsmall)

/-- A symbol that stands for an operation has it performed. -/
theorem execute_of_operation? {o : Operation} (h : table.operation? s = some o) :
    t.execute setup table i s = t.perform setup i s o := by
  unfold Table.operation? at h
  split at h
  · cases h
  · next hpatch => rw [execute, if_neg hpatch, Option.some.inj h]

/-- A symbol that stands for none is a patch. -/
theorem execute_of_operation?_eq_none (h : table.operation? s = none) :
    t.execute setup table i s = .ok (t.place s) := by
  unfold Table.operation? at h
  split at h
  · next hpatch => rw [execute, if_pos hpatch]
  · cases h

/-- An operation that is performed without a fault is a step. -/
theorem step_of_perform {o : Operation} (h : t.perform setup i s o = .ok t') :
    Step setup i s t (some o) t' := by
  cases o with
  -- turns and moves are the operations that can fail
  | forward draw contracting => exact step_of_forward h
  | turnRight | turnLeft | turnAround | pitchDown | pitchUp | rollLeft | rollRight =>
    exact step_of_turn rfl h
  -- all others succeed, so the turtle after them is the one computed
  | ignore =>
    obtain rfl := Except.ok.inj h
    exact .ignore
  | push =>
    obtain rfl := Except.ok.inj h
    exact .push
  | pop =>
    obtain rfl := Except.ok.inj h
    exact step_pop
  | beginPolygon =>
    obtain rfl := Except.ok.inj h
    exact step_beginPolygon
  | endPolygon =>
    obtain rfl := Except.ok.inj h
    exact step_endPolygon
  | submitVertex =>
    obtain rfl := Except.ok.inj h
    exact step_submitVertex
  | nextColor | previousColor =>
    obtain rfl := Except.ok.inj h
    exact .adjust rfl (.colored _)
  | widen | narrow =>
    obtain rfl := Except.ok.inj h
    exact .adjust rfl (.widened _)

/-- **The program opened.** A symbol that is executed without a fault is a step of its operation. -/
theorem step_of_execute (h : t.execute setup table i s = .ok t') :
    Step setup i s t (table.operation? s) t' := by
  cases ho : table.operation? s with
  | none =>
    rw [execute_of_operation?_eq_none ho] at h
    obtain rfl := Except.ok.inj h
    exact .place
  | some o =>
    rw [execute_of_operation? ho] at h
    exact step_of_perform h

/-! ### Poses and the stack -/

/-- Only two operations touch the stack. -/
theorem Step.stack_eq (h : Step setup i s t o t') (hpush : o ≠ some .push)
    (hpop : o ≠ some .pop) : t'.stack = t.stack := by
  cases h with
  | push => exact absurd rfl hpush
  | pop => exact absurd rfl hpop
  | popEmpty => exact absurd rfl hpop
  -- a move is defined by cases on whether it draws, so this field is not there by computation
  | move => exact move_stack ..
  | _ => rfl

/-- After `push` the turtle is where it was, with its pose on the stack. -/
theorem Step.of_push (h : Step setup i s t (some .push) t') : t' = t.push := by
  cases h with
  -- an adjustment is no `push`: the class of the operation is false by computation
  | push => rfl
  | adjust operation => cases operation

/-- With a pose that was kept, `pop` goes back to it, and there is no mistake. -/
theorem Step.of_pop {pose : Pose α} {stack : List (Pose α)} (h : Step setup i s t (some .pop) t')
    (hkept : t.stack = pose :: stack) : t' = { t with pose, stack } := by
  cases h with
  | adjust operation => cases operation
  | popEmpty empty => rw [hkept] at empty; cases empty
  | pop kept =>
    -- the pose and the stack are read off the stack, so they are the ones given
    rw [hkept] at kept
    cases kept
    rfl

/-- A move that can be made is made. -/
theorem Step.of_forward {draw contracting : Bool} {distance : α}
    (h : Step setup i s t (some (.forward draw contracting)) t')
    (hlength : t.stride setup contracting s = .ok distance) : t' = t.move distance draw := by
  cases h with
  | adjust operation => cases operation
  | move length =>
    rw [hlength] at length
    rw [Except.ok.inj length]
  -- the length is one value of a function, so it cannot be defined and overflow
  | overflow length =>
    rw [hlength] at length
    cases length

/-- **Closure.** A property of poses that moves and adjustments keep. -/
structure Keeps (setup : Setup α) (P : Pose α → Prop) : Prop where
  moved : ∀ p distance, P p → P (p.moved distance)
  adjusted : ∀ p q, P p → p.Adjusted setup q → P q

/-- The poses that a turtle has or can go back to. -/
def poses (t : Turtle α) : List (Pose α) := t.pose :: t.stack

/-- What the move or the adjustment of a symbol keeps is kept by the symbol, also of the poses on the
stack. -/
theorem Step.forall_poses {P : Pose α → Prop} (h : Step setup i s t o t')
    (hmoved : ∀ draw contracting distance, o = some (.forward draw contracting) →
      t.stride setup contracting s = .ok distance → P t.pose → P (t.pose.moved distance))
    (hadjusted : ∀ q, P t.pose → t.pose.Adjusted setup q → P q)
    (ht : ∀ p ∈ t.poses, P p) : ∀ p ∈ t'.poses, P p := by
  have hpose : P t.pose := ht _ List.mem_cons_self
  have hstack : ∀ p ∈ t.stack, P p := fun p hp => ht p (List.mem_cons_of_mem _ hp)
  cases h with
  -- the new pose is the moved one, and the stack is the old one
  | move length =>
    refine List.forall_mem_cons.2 ⟨?_, ?_⟩
    · rw [move_pose]
      exact hmoved _ _ _ rfl length hpose
    · rw [move_stack]
      exact hstack
  | adjust _ adjusted => exact List.forall_mem_cons.2 ⟨hadjusted _ hpose adjusted, hstack⟩
  -- the pose before is now on the stack as well, and of that it is known already
  | push => exact List.forall_mem_cons.2 ⟨hpose, ht⟩
  | pop kept =>
    -- the new pose and the new stack are together the old stack
    intro p hp
    exact hstack p (kept ▸ hp)
  -- every other symbol leaves pose and stack as they were
  | _ => exact ht

/-- What moves and adjustments keep is kept by every symbol, also of the poses on the stack. -/
theorem Step.poses {P : Pose α → Prop} (hP : Keeps setup P) (h : Step setup i s t o t')
    (ht : ∀ p ∈ t.poses, P p) : ∀ p ∈ t'.poses, P p :=
  h.forall_poses (fun _ _ _ _ _ => hP.moved _ _) (fun _ => hP.adjusted _ _) ht

/-- Only a move that is made and a way back that leads somewhere change the place of the turtle. -/
theorem Step.position_eq (h : Step setup i s t o t')
    (hmove : ∀ draw contracting distance, o = some (.forward draw contracting) →
      t.stride setup contracting s ≠ .ok distance)
    (hpop : o = some .pop → t.stack = []) : t'.pose.position = t.pose.position := by
  cases h with
  | move length => exact absurd length (hmove _ _ _ rfl)
  | adjust _ adjusted => exact adjusted.position_eq
  -- with nothing kept there is no pose to go back to
  | pop kept =>
    rw [hpop rfl] at kept
    cases kept
  | _ => rfl

/-! ### Lines, polygons and mistakes -/

/-- A symbol adds at most one line, and only by a move that is made. The line has the color and width
in force before the move, which does not change them. -/
theorem Step.lines_cases (h : Step setup i s t o t') :
    t'.drawing.lines = t.drawing.lines ∨
      ∃ contracting distance, o = some (.forward true contracting) ∧
        t.stride setup contracting s = .ok distance ∧
        t'.drawing.lines = t.drawing.lines.push
          ⟨t.pose.position, (t.pose.moved distance).position, t.pose.color, t.pose.width⟩ := by
  cases h with
  -- the move may draw or not; its pose is the same, and only the drawing tells them apart
  | @move draw contracting distance length =>
    cases draw with
    | false => exact .inl rfl
    | true => exact .inr ⟨contracting, distance, rfl, length, rfl⟩
  | _ => exact .inl rfl

/-- Only the three operations of polygons touch the outline. -/
theorem Step.outline_eq (h : Step setup i s t o t') (hbegin : o ≠ some .beginPolygon)
    (hsubmit : o ≠ some .submitVertex) (hend : o ≠ some .endPolygon) : t'.outline = t.outline := by
  cases h with
  | begins => exact absurd rfl hbegin
  | begins_again => exact absurd rfl hbegin
  | submits => exact absurd rfl hsubmit
  | ends => exact absurd rfl hend
  | ends_small => exact absurd rfl hend
  | move => exact move_outline ..
  | _ => rfl

/-- Only the end of a polygon adds one to the drawing. -/
theorem Step.polygons_eq (h : Step setup i s t o t') (hend : o ≠ some .endPolygon) :
    t'.drawing.polygons = t.drawing.polygons := by
  cases h with
  | ends => exact absurd rfl hend
  | move => exact move_polygons ..
  | _ => rfl

/-- A symbol adds at most one polygon, in the color in force. -/
theorem Step.polygons_cases (h : Step setup i s t o t') :
    t'.drawing.polygons = t.drawing.polygons ∨
      ∃ p : Polygon α, p.color = t.pose.color ∧
        t'.drawing.polygons = t.drawing.polygons.push p := by
  cases h with
  | ends => exact .inr ⟨_, rfl, rfl⟩
  | move => exact .inl (move_polygons ..)
  | _ => exact .inl rfl

/-- A symbol puts at most one mistake on record, under its own position and of a kind that its
operation can be at fault for. -/
theorem Step.mistakes_cases (h : Step setup i s t o t') :
    t'.drawing.mistakes = t.drawing.mistakes ∨
      ∃ cause op, o = some op ∧ cause.kind.concerns op = true ∧
        t'.drawing.mistakes = t.drawing.mistakes.push ⟨cause, i, some s⟩ := by
  cases h with
  | move => exact .inl (move_mistakes ..)
  | overflow => exact .inr ⟨_, _, rfl, rfl, rfl⟩
  | popEmpty => exact .inr ⟨_, _, rfl, rfl, rfl⟩
  | begins_again => exact .inr ⟨_, _, rfl, rfl, rfl⟩
  | submits_outside => exact .inr ⟨_, _, rfl, rfl, rfl⟩
  | ends_small => exact .inr ⟨_, _, rfl, rfl, rfl⟩
  | ends_none => exact .inr ⟨_, _, rfl, rfl, rfl⟩
  | _ => exact .inl rfl

end Turtle

end Arbor
