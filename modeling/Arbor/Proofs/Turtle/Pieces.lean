import Arbor.Proofs.Turtle.Journey
import Arbor.Proofs.Turtle.Relabelling

/-!
# Words in pieces

A turtle may draw a word at once, or one piece of it after the other, and the outcome is the same
(`Turtle.run_pieces`) if no polygon is open where one piece ends. Only the positions of mistakes
tell the two apart: each piece counts its symbols from zero. A polygon that is open at the end of a
piece is dropped there, with a mistake of its own.

The reason is that a turtle never looks at its record of mistakes. So the record may be anything,
and the positions in it may be counted in any way: `Turtle.recounted` puts other mistakes in front
of the record and renumbers the positions, which is a relabelling (`Turtle.relabelled_recounting`).
A word is executed symbol by symbol, and from a later position on each position is later by the same
number (`Turtle.executeFrom_recounted`).
-/

namespace Arbor

variable {α : Type}

/-- The same mistake at another position. -/
def Mistake.moved (f : Nat → Nat) (m : Mistake α) : Mistake α := { m with position := f m.position }

namespace Turtle

/-- **Recounting.** The turtle with other mistakes in front of its record, in which every position
is renumbered. -/
def recounted (past : Array (Mistake α)) (f : Nat → Nat) (t : Turtle α) : Turtle α :=
  { t with drawing :=
      { t.drawing with mistakes := past ++ t.drawing.mistakes.map (Mistake.moved f) } }

/-- The turtle with nothing on record. Two turtles that are equal without their records are in the
same state and have drawn the same. -/
def unrecorded (t : Turtle α) : Turtle α := { t with drawing := { t.drawing with mistakes := #[] } }

section Recounted

/-- Recounting as a relabelling. -/
def recounting (past : Array (Mistake α)) (f : Nat → Nat) : Relabelling α where
  past
  mistake := Mistake.moved f

variable (past : Array (Mistake α)) (f : Nat → Nat) (t : Turtle α)

/-- To recount is to relabel in this way. -/
theorem relabelled_recounting : t.relabelled (recounting past f) = t.recounted past f := by
  simp [relabelled, Drawing.relabelled, recounting, recounted]

/-- Every turtle is one with nothing on record, after its own mistakes. -/
theorem recounted_unrecorded : t.unrecorded.recounted t.drawing.mistakes f = t := by
  simp [recounted, unrecorded]

/-- The end of a word. -/
theorem close_recounted (n : Nat) :
    (t.recounted past f).close (f n) = (t.close n).recounted past f := by
  rw [← relabelled_recounting, ← relabelled_recounting]
  exact t.close_relabelled fun _ => rfl

/-- A symbol at a renumbered position says the same. -/
theorem reads_recounting (table : Table) (i : Nat) (s : Symbol α) :
    (recounting past f).Reads table table i (f i) s s :=
  ⟨rfl, rfl, rfl, fun _ => rfl, fun _ hname => by rw [← hname]; rfl⟩

/-- **A word** from a later position on. -/
theorem executeFrom_recounted [Scalar α] (setup : Setup α) (table : Table) (k i : Nat)
    (w : List (Symbol α)) :
    (t.recounted past (k + ·)).executeFrom setup table (k + i) w =
      ((t.executeFrom setup table i w).1.recounted past (k + ·),
        (t.executeFrom setup table i w).2) := by
  -- `k + (i + 1)` is the position after `k + i`, so one shift serves for the whole word
  have hreads (i : Nat) (s : Symbol α) :
      (recounting past (k + ·)).Reads table table i (k + i) s (id s) :=
    reads_recounting past (k + ·) table i s
  have hexecute := t.executeFrom_relabelled setup hreads (fun i => (Nat.add_assoc k i 1).symm) i w
  rwa [List.map_id, relabelled_recounting, relabelled_recounting] at hexecute

end Recounted

/-- Moved by nothing, mistakes are where they were. -/
theorem moved_zero : (Mistake.moved (0 + ·) : Mistake α → Mistake α) = id := by
  funext m
  simp [Mistake.moved]

variable [Scalar α] {setup : Setup α} {table : Table} {u v : List (Symbol α)} {t t' : Turtle α}

/-- A run that succeeds is an execution with no fault, and the turtle closed at its end. -/
theorem run_eq_none_iff :
    t.run setup table u = (t', none) ↔
      ∃ t₁, t.executeFrom setup table 0 u = (t₁, none) ∧ t' = t₁.close u.length := by
  unfold run
  obtain ⟨t₁, fault | fault⟩ := t.executeFrom setup table 0 u
  · simp [eq_comm]
  · simp

/-- **Words in pieces.** Where a turtle runs the word `u ++ v` to its end, it executes `u`. If no
polygon is open there, the runs of `u` and then of `v` succeed and lead to the same turtle; the same
mistakes are put on record, those of `v` at positions that are less by the length of `u`. If a
polygon is open, the run of `u` drops it, and this is one mistake more, at the end of `u` and with
no symbol. -/
theorem run_pieces (h : t.run setup table (u ++ v) = (t', none)) :
    ∃ t₁, t.executeFrom setup table 0 u = (t₁, none) ∧
      (t₁.outline = none →
        t.run setup table u = (t₁, none) ∧
        ∃ t₂ later, t₁.run setup table v = (t₂, none) ∧ t₂.unrecorded = t'.unrecorded ∧
          t₂.drawing.mistakes = t₁.drawing.mistakes ++ later ∧
          t'.drawing.mistakes =
            t₁.drawing.mistakes ++ later.map (Mistake.moved (u.length + ·))) ∧
      ∀ o, t₁.outline = some o →
        t.run setup table u =
          ({ t₁.record (.polygonLeftOpen o.size) u.length none with outline := none }, none) := by
  obtain ⟨whole, hwhole, rfl⟩ := run_eq_none_iff.1 h
  obtain ⟨t₁, hu, hv⟩ := executeFrom_append_eq_none_iff.1 hwhole
  refine ⟨t₁, hu, fun hclosed => ⟨?_, ?_⟩, fun o hopen => ?_⟩
  · refine run_eq_none_iff.2 ⟨t₁, hu, ?_⟩
    rw [close, hclosed]
  · -- `v` is executed by the turtle with nothing on record, and the two runs count it differently
    have hcount (k : Nat) :
        t₁.executeFrom setup table (k + 0) v =
          ((t₁.unrecorded.executeFrom setup table 0 v).1.recounted t₁.drawing.mistakes (k + ·),
            (t₁.unrecorded.executeFrom setup table 0 v).2) := by
      rw [← executeFrom_recounted, recounted_unrecorded]
    generalize t₁.unrecorded.executeFrom setup table 0 v = outcome at hcount
    obtain ⟨t₂, fault⟩ := outcome
    have hlater : (t₂.recounted t₁.drawing.mistakes (u.length + ·), fault) = (whole, none) := by
      rw [← hcount, ← hv, Nat.add_zero, Nat.zero_add]
    obtain ⟨rfl, rfl⟩ := Prod.mk.inj hlater
    have hfirst : t₁.run setup table v =
        ((t₂.close v.length).recounted t₁.drawing.mistakes (0 + ·), none) := by
      refine run_eq_none_iff.2 ⟨_, hcount 0, ?_⟩
      rw [← close_recounted, Nat.zero_add]
    refine ⟨_, (t₂.close v.length).drawing.mistakes, hfirst, ?_, ?_, ?_⟩
    · rw [List.length_append, close_recounted]
      rfl
    · rw [recounted, moved_zero, Array.map_id]
    · rw [List.length_append, close_recounted]
      rfl
  · refine run_eq_none_iff.2 ⟨t₁, hu, ?_⟩
    rw [close, hopen]

open scoped Grid in
/-- A word that is cut inside a branch, with a mistake in each piece, and one that is cut inside a
polygon. -/
theorem run_pieces_cuts :
    let plain (name : String) : Symbol Int := ⟨name, [], false⟩
    let positions (t : Turtle Int) := t.drawing.mistakes.toList.map (·.position)
    let branch := [plain "F", plain "[", plain "\x7d", plain "+"]
    let rest := [plain "F", plain "]", plain "]"]
    let j := Journey.onGrid (branch ++ rest)
    let corner := [plain "\x7b", plain "F", plain "."]
    let k := Journey.onGrid (corner ++ [plain "\x7d"])
    (∃ t₁ t₂ t', j.start.run j.setup j.table branch = (t₁, none) ∧
      t₁.run j.setup j.table rest = (t₂, none) ∧
      j.start.run j.setup j.table (branch ++ rest) = (t', none) ∧
      t₂.unrecorded = t'.unrecorded ∧ positions t₂ = [2, 2] ∧ positions t' = [2, 6]) ∧
    ∃ t₁ : Turtle Int, k.start.run k.setup k.table corner =
      ({ t₁.record (.polygonLeftOpen 2) 3 none with outline := none }, none) := by
  intro plain positions branch rest j corner k
  constructor
  · -- the branch is closed before the cut, so the rest is run from where it ends
    have hj : j.start.run j.setup j.table j.word =
        ((j.start.run j.setup j.table j.word).1, none) := Prod.ext rfl (by decide +kernel)
    obtain ⟨t₁, hbranch, hclosed, -⟩ := run_pieces hj
    obtain rfl : (j.start.executeFrom j.setup j.table 0 branch).1 = t₁ := congrArg Prod.fst hbranch
    obtain ⟨hfirst, t₂, later, hrest, hsame, -⟩ := hclosed (by decide +kernel)
    refine ⟨_, t₂, _, hfirst, hrest, hj, hsame, ?_, by decide +kernel⟩
    obtain rfl := congrArg Prod.fst hrest
    decide +kernel
  · -- the cut falls within a polygon
    have hk : k.start.run k.setup k.table k.word =
        ((k.start.run k.setup k.table k.word).1, none) := Prod.ext rfl (by decide +kernel)
    obtain ⟨t₁, hcorner, -, hopen⟩ := run_pieces hk
    obtain rfl : (k.start.executeFrom k.setup k.table 0 corner).1 = t₁ := congrArg Prod.fst hcorner
    exact ⟨_, hopen ⟨⟨0, 0, 0⟩, #[⟨1, 0, 0⟩]⟩ (by decide +kernel)⟩

end Turtle

end Arbor
