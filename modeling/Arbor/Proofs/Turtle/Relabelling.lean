import Arbor.Turtle.Interpreter

/-!
# What a turtle writes and never reads

A turtle puts its mistakes on record and places patches, but it never looks at either again. So what
is written there may be rewritten at any time: a `Relabelling` says by what each patch and each
mistake is replaced, and which other mistakes come before the record. It makes another turtle of
each turtle (`Turtle.relabelled`), in the same state and with the same lines and polygons.

Two symbols at two positions, read with two tables, may say the same to a turtle up to a relabelling
(`Relabelling.Reads`). They have the same parameters and the same mark, they stand for the same
operation, and the patch or the mistake that the one may lead to is relabelled as that of the other.
Then the other symbol does to the relabelled turtle what the one does to the turtle
(`Turtle.execute_relabelled`), and so do words of such symbols (`Turtle.executeFrom_relabelled`).

Positions that are counted from another start and names that are exchanged for others are both
relabellings.
-/

namespace Arbor

variable {α : Type}

/-- **Relabelling** of what a turtle writes and never reads. -/
structure Relabelling (α : Type) where
  /-- The mistakes before the record. -/
  past : Array (Mistake α) := #[]
  /-- What a mistake on record becomes. -/
  mistake : Mistake α → Mistake α := id
  /-- What a placed patch becomes. -/
  patch : Patch α → Patch α := id

/-- A symbol `s` at position `i`, read with one table, says the same as `s'` at `i'`, read with
another one, but for what is relabelled. -/
structure Relabelling.Reads (l : Relabelling α) (table table' : Table) (i i' : Nat)
    (s s' : Symbol α) : Prop where
  params : s'.params = s.params
  mark : s'.patch = s.patch
  operation : table'.find s'.name = table.find s.name
  mistake : ∀ cause, l.mistake ⟨cause, i, some s⟩ = ⟨cause, i', some s'⟩
  patch : ∀ p : Patch α, p.name = s.name → l.patch p = { p with name := s'.name }

/-- The drawing with its patches and mistakes relabelled. -/
def Drawing.relabelled (l : Relabelling α) (d : Drawing α) : Drawing α :=
  { d with patches := d.patches.map l.patch, mistakes := l.past ++ d.mistakes.map l.mistake }

namespace Turtle

/-- The turtle with its patches and mistakes relabelled. -/
def relabelled (l : Relabelling α) (t : Turtle α) : Turtle α :=
  { t with drawing := t.drawing.relabelled l }

variable (l : Relabelling α) (t : Turtle α)

@[simp] theorem relabelled_pose : (t.relabelled l).pose = t.pose := rfl

@[simp] theorem relabelled_stack : (t.relabelled l).stack = t.stack := rfl

@[simp] theorem relabelled_outline : (t.relabelled l).outline = t.outline := rfl

variable {l} {cause : Mistake.Cause α} {i i' : Nat}

/-- A mistake put on record is relabelled with the others. -/
theorem record_relabelled {s s' : Option (Symbol α)}
    (h : l.mistake ⟨cause, i, s⟩ = ⟨cause, i', s'⟩) :
    (t.relabelled l).record cause i' s' = (t.record cause i s).relabelled l := by
  simp [relabelled, Drawing.relabelled, record, Array.push_append, h]

/-- The end of a word. -/
theorem close_relabelled (h : ∀ cause, l.mistake ⟨cause, i, none⟩ = ⟨cause, i', none⟩) :
    (t.relabelled l).close i' = (t.close i).relabelled l := by
  unfold close
  rw [relabelled_outline]
  cases t.outline with
  | none => rfl
  -- a polygon left open is the one thing that the end of a word puts on record
  | some o =>
    dsimp only
    rw [t.record_relabelled (h _)]
    rfl

/-! ### One symbol -/

section Symbol

variable {table table' : Table} {s s' : Symbol α} (h : l.Reads table table' i i' s s')
include h

/-- A step back, or the mistake that there is none. -/
theorem pop_relabelled :
    ((t.relabelled l).pop?.getD ((t.relabelled l).record .popEmpty i' s')) =
      (t.pop?.getD (t.record .popEmpty i s)).relabelled l := by
  unfold pop?
  rw [relabelled_stack, t.record_relabelled (h.mistake _)]
  cases t.stack <;> rfl

/-- A polygon begins, or begins again with a mistake. -/
theorem beginPolygon_relabelled :
    (t.relabelled l).beginPolygon i' s' = (t.beginPolygon i s).relabelled l := by
  unfold beginPolygon
  rw [relabelled_outline]
  cases t.outline with
  | none => rfl
  | some o =>
    dsimp only
    rw [t.record_relabelled (h.mistake _)]
    rfl

/-- A polygon ends, with a mistake if it is too small or there is none. -/
theorem endPolygon_relabelled :
    (t.relabelled l).endPolygon i' s' = (t.endPolygon i s).relabelled l := by
  unfold endPolygon
  rw [relabelled_outline]
  cases t.outline with
  | none => exact t.record_relabelled (h.mistake _)
  | some o =>
    dsimp only
    split
    · rfl
    · exact record_relabelled { t with outline := none } (h.mistake _)

variable [Scalar α]

/-- A vertex is added, or is a mistake outside of a polygon. -/
theorem submitVertex_relabelled :
    (t.relabelled l).submitVertex i' s' = (t.submitVertex i s).relabelled l := by
  unfold submitVertex
  rw [relabelled_outline]
  cases t.outline with
  | none => exact t.record_relabelled (h.mistake _)
  | some o => rfl

omit h in
/-- A move puts nothing on record. -/
theorem move_relabelled (distance : α) (draw : Bool) :
    (t.relabelled l).move distance draw = (t.move distance draw).relabelled l := by
  cases draw <;> rfl

/-- A move of either kind, with its line and with a power that is too large. -/
theorem forward_relabelled (setup : Setup α) (draw contracting : Bool) :
    (t.relabelled l).forward setup draw contracting i' s' =
      (t.forward setup draw contracting i s).map (relabelled l) := by
  unfold forward
  simp only [h.params, relabelled_pose, move_relabelled, t.record_relabelled (h.mistake _)]
  cases contracting with
  | false => rfl
  | true =>
    simp only [if_true]
    -- the fault is the same on both sides, and a power that is too large goes on both records
    cases Scalar.power (s.params.head?.getD setup.step) t.pose.contraction with
    | ok distance => rfl
    | error fault => cases fault <;> rfl

omit h in
/-- A turn puts nothing on record. -/
theorem turn_relabelled (axis : Axis) (angle : α) :
    (t.relabelled l).turn axis angle = (t.turn axis angle).map (relabelled l) := by
  unfold turn
  cases Scalar.cosSin angle <;> rfl

/-- A placed patch is relabelled with the others. -/
theorem place_relabelled : (t.relabelled l).place s' = (t.place s).relabelled l := by
  simp [relabelled, Drawing.relabelled, place, h.params, h.patch]

/-- **One symbol** does to the relabelled turtle what the other one does to the turtle. -/
theorem execute_relabelled (setup : Setup α) :
    (t.relabelled l).execute setup table' i' s' =
      (t.execute setup table i s).map (relabelled l) := by
  unfold execute
  rw [h.mark]
  split
  · exact congrArg Except.ok (t.place_relabelled h)
  rw [h.operation]
  -- one operation on both sides: it reads the parameter and the state, and these are the same
  cases table.find s.name with
  | forward draw contracting => exact t.forward_relabelled h setup draw contracting
  | turnRight | turnLeft | turnAround | pitchDown | pitchUp | rollLeft | rollRight =>
    simp only [perform, turningAngle, h.params]
    exact t.turn_relabelled ..
  | pop => exact congrArg Except.ok (t.pop_relabelled h)
  | beginPolygon => exact congrArg Except.ok (t.beginPolygon_relabelled h)
  | submitVertex => exact congrArg Except.ok (t.submitVertex_relabelled h)
  | endPolygon => exact congrArg Except.ok (t.endPolygon_relabelled h)
  | widen | narrow =>
    simp only [perform, h.params]
    rfl
  | ignore | push | nextColor | previousColor => rfl

end Symbol

variable [Scalar α]

/-- **A word** of such symbols. The positions of one word are those of the other, counted from
another start. -/
theorem executeFrom_relabelled (setup : Setup α) {table table' : Table}
    {sym : Symbol α → Symbol α} {position : Nat → Nat}
    (hreads : ∀ i s, l.Reads table table' i (position i) s (sym s))
    (hnext : ∀ i, position (i + 1) = position i + 1) (i : Nat) (w : List (Symbol α)) :
    (t.relabelled l).executeFrom setup table' (position i) (w.map sym) =
      ((t.executeFrom setup table i w).1.relabelled l, (t.executeFrom setup table i w).2) := by
  induction w generalizing i t with
  | nil => rfl
  | cons s w ih =>
    -- both turtles go on with the next symbol, or both end here with one fault
    rw [List.map_cons, executeFrom, executeFrom, t.execute_relabelled (hreads i s)]
    cases t.execute setup table i s with
    | error fault => rfl
    | ok t₁ =>
      simp only [Except.map, ← hnext]
      exact ih t₁ (i + 1)

end Turtle

end Arbor
