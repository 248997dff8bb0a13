import Arbor.Grammar.Reader
import Arbor.Proofs.Numeral.Product
import Arbor.Proofs.Turtle.Journey

/-!
# What ends a drawing

Mistakes in a word are put on record and the turtle goes on. What ends a drawing instead is a turn by
an infinite angle, since there is no cosine of it, and where the depth of the word is not negative, it
is the only thing (`Turtle.interpret_verdict`): a word without such a turn is drawn to its end, and a
word with one is not drawn at all.

A power of the depth fails for a zero that is raised to a negative exponent, and the depth is the
exponent of every pose (`Turtle.Deep`), so this does not come about. Angles are taken to radians and
turned around before they have a cosine. Neither makes an angle infinite that is not
(`Numeral.isInf_radians`, `Numeral.isInf_neg`).
-/

namespace Arbor

open Outcome
open Numeral (WholePowerFault isInf_radians isInf_neg)

/-- Operations that turn by the first parameter, or by the angle of the setup. -/
def Operation.turnsBy : Operation → Bool
  | turnRight | turnLeft | pitchDown | pitchUp | rollLeft | rollRight => true
  | _ => false

/-- **Infinite turns.** The symbol stands for a turn by an infinite angle. -/
structure InfiniteTurn (setup : Setup Float) (table : Table) (s : Symbol Float) : Prop where
  turns : ∃ o, table.operation? s = some o ∧ o.turnsBy = true
  infinite : (s.params.head?.getD setup.angle).isInf = true

/-- The notion by tests that are run on the symbol. -/
theorem infiniteTurn_iff {setup : Setup Float} {table : Table} {s : Symbol Float} :
    InfiniteTurn setup table s ↔ (table.operation? s).any Operation.turnsBy = true ∧
      (s.params.head?.getD setup.angle).isInf = true := by
  rw [Option.any_eq_true]
  exact ⟨fun h => ⟨h.turns, h.infinite⟩, fun h => ⟨h.1, h.2⟩⟩

instance (setup : Setup Float) (table : Table) (s : Symbol Float) :
    Decidable (InfiniteTurn setup table s) := decidable_of_iff _ infiniteTurn_iff.symm

/-- With an exponent that is not negative a power may only be too large. -/
theorem Numeral.wholePower_ne_zeroToNegative {n : Int} (hn : 0 ≤ n) (base : Float) :
    wholePower base n ≠ .error .zeroToNegative := by
  unfold wholePower
  dsimp only
  -- the only branch with that fault asks for a negative exponent
  repeat' split
  all_goals first | omega | nofun

namespace Turtle

variable {setup : Setup Float} {table : Table} {depth : Int} {i : Nat} {s : Symbol Float}
  {t : Turtle Float} {axis : Axis} {angle : Float} {w : List (Symbol Float)}

/-! ### One symbol -/

/-- There is no cosine of an infinite angle. -/
theorem turn_of_isInf (h : angle.isInf = true) : t.turn axis angle = .error .infiniteAngle := by
  have hcosSin : Scalar.cosSin angle = none := if_pos h
  rw [turn, hcosSin]

/-- Of any other angle there is, and the turtle turns. -/
theorem exists_turn (h : angle.isInf = false) : ∃ t', t.turn axis angle = .ok t' := by
  have hcosSin : Scalar.cosSin angle = some (angle.cos, angle.sin) := if_neg (by simp [h])
  rw [turn, hcosSin]
  exact ⟨_, rfl⟩

/-- The angle of a turn is infinite just if it is so in degrees. -/
theorem isInf_turningAngle :
    (turningAngle setup s).isInf = (s.params.head?.getD setup.angle).isInf := isInf_radians _

/-- Half a turn is finite. -/
theorem isInf_halfTurn : (Scalar.halfTurn : Float).isInf = false := by decide +kernel

/-- A move fails at no depth that is zero or more. -/
theorem exists_forward {draw contracting : Bool} (h : 0 ≤ t.pose.contraction) :
    ∃ t', t.forward setup draw contracting i s = .ok t' := by
  unfold forward
  dsimp only
  -- only a contracting move takes a power, and one that is too large goes on record
  split
  · split
    · exact ⟨_, rfl⟩
    · exact ⟨_, rfl⟩
    · next hpower => exact absurd hpower (Numeral.wholePower_ne_zeroToNegative h _)
  · exact ⟨_, rfl⟩

/-- A turn by an infinite angle is at fault. -/
theorem execute_of_infiniteTurn (h : InfiniteTurn setup table s) :
    t.execute setup table i s = .error .infiniteAngle := by
  obtain ⟨⟨o, ho, hturns⟩, hinfinite⟩ := h
  have hangle : (turningAngle setup s).isInf = true := isInf_turningAngle.trans hinfinite
  have hminus : (-turningAngle setup s).isInf = true := (isInf_neg _).trans hangle
  rw [execute_of_operation? ho]
  cases o with
  | turnLeft | pitchDown | rollLeft => exact turn_of_isInf hangle
  | turnRight | pitchUp | rollRight => exact turn_of_isInf hminus
  | _ => cases hturns

/-- **Any other symbol** is executed. -/
theorem exists_execute (hdepth : 0 ≤ t.pose.contraction) (h : ¬ InfiniteTurn setup table s) :
    ∃ t', t.execute setup table i s = .ok t' := by
  cases ho : table.operation? s with
  | none => exact ⟨t.place s, execute_of_operation?_eq_none ho⟩
  | some o =>
    have hangle : o.turnsBy = true → (turningAngle setup s).isInf = false := by
      intro hturns
      rw [isInf_turningAngle, Bool.eq_false_iff]
      exact fun hinfinite => h ⟨⟨o, ho, hturns⟩, hinfinite⟩
    rw [execute_of_operation? ho]
    cases o with
    | forward draw contracting => exact exists_forward hdepth
    | turnLeft | pitchDown | rollLeft => exact exists_turn (hangle rfl)
    | turnRight | pitchUp | rollRight => exact exists_turn ((isInf_neg _).trans (hangle rfl))
    | turnAround => exact exists_turn isInf_halfTurn
    | _ => exact ⟨_, rfl⟩

/-! ### A word -/

/-- **Depth.** The exponent of every pose is not negative. -/
def Deep (t : Turtle Float) : Prop := ∀ p ∈ t.poses, 0 ≤ p.contraction

/-- Depth lasts through a symbol. -/
theorem Deep.execute {t' : Turtle Float} (ht : t.Deep) (h : t.execute setup table i s = .ok t') :
    t'.Deep := by
  -- a pose that moves or is adjusted keeps its exponent, and no pose comes from elsewhere
  refine (step_of_execute h).poses ⟨fun p distance hp => hp, fun p q hp hadjusted => ?_⟩ ht
  rwa [hadjusted.contraction_eq]

/-- The pose the turtle has is one of its poses. -/
theorem Deep.contraction (ht : t.Deep) : 0 ≤ t.pose.contraction := ht _ List.mem_cons_self

/-- A word without infinite turns is executed to its end. -/
theorem Deep.exists_executeFrom (ht : t.Deep) (h : ∀ s ∈ w, ¬ InfiniteTurn setup table s) :
    ∃ t', t.executeFrom setup table i w = (t', none) := by
  induction w generalizing t i with
  | nil => exact ⟨t, rfl⟩
  | cons s w ih =>
    obtain ⟨t₁, hexecute⟩ := exists_execute (i := i) ht.contraction (h s List.mem_cons_self)
    obtain ⟨t', hrest⟩ := ih (i := i + 1) (ht.execute hexecute) fun s' hs =>
      h s' (List.mem_cons_of_mem s hs)
    exact ⟨t', executeFrom_cons_eq_none_iff.2 ⟨t₁, hexecute, hrest⟩⟩

/-- The first infinite turn ends a word. -/
theorem Deep.executeFrom_fault (ht : t.Deep) (h : ∃ s ∈ w, InfiniteTurn setup table s) :
    (t.executeFrom setup table i w).2 = some .infiniteAngle := by
  induction w generalizing t i with
  | nil =>
    obtain ⟨s, hs, -⟩ := h
    exact absurd hs List.not_mem_nil
  | cons s w ih =>
    rw [executeFrom]
    by_cases hs : InfiniteTurn setup table s
    · rw [execute_of_infiniteTurn hs]
    · obtain ⟨t₁, hexecute⟩ := exists_execute (i := i) ht.contraction hs
      rw [hexecute]
      -- a turn that comes later is one in the rest of the word
      refine ih (ht.execute hexecute) ?_
      obtain ⟨s', hs', hturn⟩ := h
      rcases List.mem_cons.1 hs' with rfl | hs'
      · exact absurd hturn hs
      · exact ⟨s', hs', hturn⟩

/-! ### A drawing -/

/-- A turtle that heads in a direction starts, and its exponent is the depth. -/
theorem exists_initial (hheading : setup.heading.isInf = false) (hdepth : 0 ≤ depth) :
    ∃ t, initial setup depth = .ok t ∧ t.Deep := by
  have hcosSin : Scalar.cosSin (Scalar.radians setup.heading) =
      some ((Scalar.radians setup.heading).cos, (Scalar.radians setup.heading).sin) :=
    if_neg (by simp [isInf_radians, hheading])
  rw [initial, Pose.initial, hcosSin]
  refine ⟨_, rfl, ?_⟩
  intro p hp
  obtain rfl := List.mem_singleton.1 hp
  exact hdepth

section Interpret

variable (hheading : setup.heading.isFinite = true) (hdepth : 0 ≤ depth)

include hheading hdepth

/-- Without infinite turns the whole word is executed and drawn. -/
theorem interpret_of_no_turn (h : ∀ s ∈ w, ¬ InfiniteTurn setup table s) :
    ∃ t t', initial setup depth = .ok t ∧ t.executeFrom setup table 0 w = (t', none) ∧
      interpret setup table depth w = .ok (t'.close w.length).drawing := by
  obtain ⟨t, hinitial, hdeep⟩ := exists_initial (Numeral.isInf_eq_false hheading) hdepth
  obtain ⟨t', hexecute⟩ := hdeep.exists_executeFrom (i := 0) h
  refine ⟨t, t', hinitial, hexecute, ?_⟩
  rw [interpret, hinitial, ok_bind, run, hexecute]
  rfl

/-- With one of them no drawing is made. -/
theorem interpret_of_infiniteTurn (h : ∃ s ∈ w, InfiniteTurn setup table s) :
    interpret setup table depth w = .error .infiniteAngle := by
  obtain ⟨t, hinitial, hdeep⟩ := exists_initial (Numeral.isInf_eq_false hheading) hdepth
  have hexecute : t.executeFrom setup table 0 w =
      ((t.executeFrom setup table 0 w).1, some .infiniteAngle) :=
    Prod.ext rfl (hdeep.executeFrom_fault h)
  rw [interpret, hinitial, ok_bind, run, hexecute]
  rfl

/-- **What ends a drawing.** For a start in a definite direction and a depth that is not negative, a word
without infinite turns is executed to its end, whatever mistakes there are in it, and a drawing is the
outcome. With an infinite turn there is none. -/
theorem interpret_verdict (w : List (Symbol Float)) :
    ((∀ s ∈ w, ¬ InfiniteTurn setup table s) →
      ∃ t t', initial setup depth = .ok t ∧ t.executeFrom setup table 0 w = (t', none) ∧
        interpret setup table depth w = .ok (t'.close w.length).drawing) ∧
    ((∃ s ∈ w, InfiniteTurn setup table s) →
      interpret setup table depth w = .error .infiniteAngle) :=
  ⟨interpret_of_no_turn hheading hdepth, interpret_of_infiniteTurn hheading hdepth⟩

end Interpret

/-- A word with a mistake, and one with an infinite turn. -/
theorem interpret_verdict_turns :
    let turn (x : Float) : Symbol Float := ⟨"+", [x], false⟩
    let plain (name : String) : Symbol Float := ⟨name, [], false⟩
    (∃ d, interpret Setup.standard .standard 2 [turn 90.0, plain "]", plain "G"] = .ok d) ∧
      interpret Setup.standard .standard 2 [plain "G", turn Numeral.infinity] =
        .error .infiniteAngle := by
  intro turn plain
  have hheading : Setup.standard.heading.isFinite = true := by decide +kernel
  have hverdict := @interpret_verdict Setup.standard .standard 2 hheading (by decide)
  obtain ⟨_, _, -, -, hdrawing⟩ :=
    (hverdict [turn 90.0, plain "]", plain "G"]).1 (by decide +kernel)
  exact ⟨⟨_, hdrawing⟩, (hverdict [plain "G", turn Numeral.infinity]).2 (by decide +kernel)⟩

/-- A word that is read may have an infinite turn. -/
theorem interpret_ends_at_turn :
    ¬ ∀ (start : String) (w : Word) (setup : Setup Float) (table : Table) (depth : Int),
      Word.parse start = .ok w → setup.heading.isFinite = true → 0 ≤ depth →
        ∃ d, interpret setup table depth w = .ok d := by
  intro h
  have hparse : Word.parse "+(1e999)F" =
      .ok [⟨"+", [Numeral.infinity], false⟩, ⟨"F", [], false⟩] := by decide +kernel
  have hheading : Setup.standard.heading.isFinite = true := by decide +kernel
  obtain ⟨d, hd⟩ := h _ _ Setup.standard .standard 0 hparse hheading (by decide)
  rw [interpret_of_infiniteTurn hheading (by decide) (by decide +kernel)] at hd
  cases hd

end Turtle

end Arbor
