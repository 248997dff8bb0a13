import Arbor.Proofs.Outcome
import Arbor.Proofs.Turtle.Step
import Mathlib.Data.Nat.Sqrt

/-!
# Journeys

A journey is a turtle with a word before it. It is looked at position by position: which operation
stands there (`Journey.operation?`), and what the turtle is like when it gets there
(`Journey.turtle`). Statements about a whole drawing can so be made in terms of the word and of the
places that the turtle passes, and not of the way in which a program keeps them.

The turtle at a position is what the program makes of the word up to there. Where the symbol of a
position is executed, one step of the journey leads to the next position (`Journey.step_of_executes`);
from the symbol at fault on, the turtle stays as it is (`Journey.turtle_succ_of_not_executes`). If no
fault ends the journey, there is a step at each position (`Journey.step`), and a property of all
positions is proved by induction along it (`Journey.induction`). A run of the whole word leads to the
last turtle of the journey, which is closed if there was no fault (`Journey.cases_of_run`).

Journeys are over any numbers. Those on a grid (`Journey.onGrid`) have whole ones, which is enough for
steps and quarter turns, and their places can be computed with no cosine in the way.
-/

namespace Arbor

open Outcome Turtle
open Numeral (WholePowerFault)

variable {α : Type}

namespace Turtle

/-- Nothing is open at the end of a word. -/
@[simp] theorem close_outline (n : Nat) (t : Turtle α) : (t.close n).outline = none := by
  -- both branches are needed: with nothing open the turtle is returned as it was
  unfold close
  split
  · next hnone => exact hnone
  · rfl

/-- The polygon that is still open at the end is dropped and not drawn. -/
@[simp] theorem close_polygons (n : Nat) (t : Turtle α) :
    (t.close n).drawing.polygons = t.drawing.polygons := by
  unfold close
  split <;> rfl

/-- To close a word draws no line. -/
@[simp] theorem close_lines (n : Nat) (t : Turtle α) :
    (t.close n).drawing.lines = t.drawing.lines := by
  unfold close
  split <;> rfl

/-- To close a word does not move the turtle. -/
@[simp] theorem close_poses (n : Nat) (t : Turtle α) : (t.close n).poses = t.poses := by
  unfold close
  split <;> rfl

variable [Scalar α] {setup : Setup α} {table : Table} {i : Nat} {u v : List (Symbol α)} {s : Symbol α}
  {t t' : Turtle α}

/-- **A fresh turtle** is at its start with the width of the setup, in the first color, and with the
depth for its exponent, and it heads where the setup says. It has kept no pose, has nothing open and has
drawn nothing. -/
theorem cosSin_of_initial {depth : Int} (h : initial setup depth = .ok t) :
    ∃ c s, Scalar.cosSin (Scalar.radians setup.heading) = some (c, s) ∧
      t = { pose := ⟨setup.start, .initial c s, setup.width, 0, depth⟩ } := by
  -- a fresh turtle is built from its first pose, so it is there just if that pose is
  obtain ⟨pose, hpose, h⟩ := bind_eq_ok_iff.1 h
  obtain rfl := Except.ok.inj h
  unfold Pose.initial at hpose
  split at hpose
  · -- without a cosine of the heading there is no first pose
    cases hpose
  · next hcosSin =>
    obtain rfl := Except.ok.inj hpose
    exact ⟨_, _, hcosSin, rfl⟩

/-- A fresh turtle, whatever its frame. -/
theorem exists_of_initial {depth : Int} (h : initial setup depth = .ok t) :
    ∃ frame, t = { pose := ⟨setup.start, frame, setup.width, 0, depth⟩ } := by
  obtain ⟨c, s, -, ht⟩ := cosSin_of_initial h
  exact ⟨_, ht⟩

/-- A word is executed if its first symbol is, and the rest after it from the next position on. -/
theorem executeFrom_cons_eq_none_iff :
    t.executeFrom setup table i (s :: v) = (t', none) ↔
      ∃ t₁, t.execute setup table i s = .ok t₁ ∧
        t₁.executeFrom setup table (i + 1) v = (t', none) := by
  rw [executeFrom]
  cases t.execute setup table i s with
  | error fault => simp
  | ok t₁ => simp

/-- A word in two pieces is executed if the first piece is, and the second after it. -/
theorem executeFrom_append_eq_none_iff :
    t.executeFrom setup table i (u ++ v) = (t', none) ↔
      ∃ t₁, t.executeFrom setup table i u = (t₁, none) ∧
        t₁.executeFrom setup table (i + u.length) v = (t', none) := by
  rw [executeFrom_append]
  -- only a first piece without a fault is followed by the second
  obtain ⟨t₁, fault | fault⟩ := t.executeFrom setup table i u
  · simp
  · simp

/-- A fault comes from one symbol, and the symbols before it are executed. -/
theorem exists_of_executeFrom_eq_some {w : List (Symbol α)} {fault : Fault}
    (h : t.executeFrom setup table i w = (t', some fault)) :
    ∃ k s, w[k]? = some s ∧ t.executeFrom setup table i (w.take k) = (t', none) ∧
      t'.execute setup table (i + k) s = .error fault := by
  induction w generalizing i t with
  | nil => cases (Prod.mk.inj h).2
  | cons s w ih =>
    rw [executeFrom] at h
    cases hexecute : t.execute setup table i s with
    | error fault' =>
      rw [hexecute] at h
      -- the first symbol is at fault, and no symbol stands before it
      obtain ⟨rfl, hfault⟩ := Prod.mk.inj h
      rw [Option.some.inj hfault] at hexecute
      exact ⟨0, s, rfl, rfl, hexecute⟩
    | ok t₁ =>
      rw [hexecute] at h
      -- the fault is in the rest, where positions are counted from the next one on
      obtain ⟨k, s', hs', hbefore, hfault⟩ := ih h
      refine ⟨k + 1, s', hs', executeFrom_cons_eq_none_iff.2 ⟨t₁, hexecute, hbefore⟩, ?_⟩
      rwa [Nat.add_assoc, Nat.add_comm 1] at hfault

/-- What moves and adjustments keep is kept by a word, as far as it is executed. -/
theorem poses_executeFrom {P : Pose α → Prop} (hP : Keeps setup P) (w : List (Symbol α))
    (ht : ∀ p ∈ t.poses, P p) : ∀ p ∈ (t.executeFrom setup table i w).1.poses, P p := by
  induction w generalizing i t with
  | nil => exact ht
  | cons s w ih =>
    rw [executeFrom]
    cases hexecute : t.execute setup table i s with
    -- at a fault the turtle is left as it was before the symbol
    | error fault => exact ht
    | ok t₁ => exact ih ((step_of_execute hexecute).poses hP ht)

end Turtle

variable [Scalar α]

/-- **Journey.** A turtle with a word before it, and what it needs to read it. -/
structure Journey (α : Type) [Scalar α] where
  setup : Setup α
  table : Table
  word : List (Symbol α)
  start : Turtle α

namespace Journey

/-- The turtle before the symbol of position `k`. -/
def turtle (j : Journey α) (k : Nat) : Turtle α :=
  (j.start.executeFrom j.setup j.table 0 (j.word.take k)).1

/-- The operation of the symbol of position `k`, if there is one. -/
def operation? (j : Journey α) (k : Nat) : Option Operation :=
  j.word[k]?.bind j.table.operation?

/-- Where the turtle is before the symbol of position `k`. -/
def place (j : Journey α) (k : Nat) : Vec α := (j.turtle k).pose.position

/-- No fault ends the journey. -/
def Complete (j : Journey α) : Prop := (j.start.executeFrom j.setup j.table 0 j.word).2 = none

/-- No fault ends the journey before position `k`. -/
def Reaches (j : Journey α) (k : Nat) : Prop :=
  (j.start.executeFrom j.setup j.table 0 (j.word.take k)).2 = none

instance (j : Journey α) (k : Nat) : Decidable (j.Reaches k) :=
  inferInstanceAs (Decidable (_ = none))

/-- The symbol of position `k` is executed, and it is not at fault. -/
def Executes (j : Journey α) (k : Nat) : Prop := k < j.word.length ∧ j.Reaches (k + 1)

instance (j : Journey α) (k : Nat) : Decidable (j.Executes k) :=
  inferInstanceAs (Decidable (_ ∧ _))

/-- **Faults.** The symbols before position `k` are executed, and the one there is at fault. -/
structure EndsAt (j : Journey α) (k : Nat) (fault : Fault) : Prop where
  reaches : j.Reaches k
  faulty : ∃ s, j.word[k]? = some s ∧
    (j.turtle k).execute j.setup j.table k s = .error fault

variable {j : Journey α} {k : Nat}

@[simp] theorem turtle_zero : j.turtle 0 = j.start := rfl

/-- Within the word the operation of a position is that of its symbol. -/
theorem operation?_of_lt (hk : k < j.word.length) :
    j.operation? k = j.table.operation? j.word[k] := by
  rw [operation?, List.getElem?_eq_getElem hk, Option.bind_some]

/-- Where an operation stands there is a symbol. -/
theorem lt_of_operation? {o : Operation} (h : j.operation? k = some o) : k < j.word.length := by
  refine Nat.lt_of_not_le fun hk => ?_
  rw [operation?, List.getElem?_eq_none hk, Option.bind_none] at h
  cases h

/-- How often an operation stands in the part of the word up to the next position. -/
theorem count_take_succ (hk : k < j.word.length) (o : Operation) :
    j.table.count o (j.word.take (k + 1)) =
      j.table.count o (j.word.take k) + if j.operation? k = some o then 1 else 0 := by
  rw [operation?_of_lt hk, List.take_add_one, List.getElem?_eq_getElem hk, Option.toList_some,
    Table.count, List.countP_append, List.countP_singleton, Table.count]
  simp only [decide_eq_true_eq]

/-- The word up to the next position has one symbol more. -/
theorem executeFrom_take_succ (hk : k < j.word.length) :
    j.start.executeFrom j.setup j.table 0 (j.word.take (k + 1)) =
      match j.start.executeFrom j.setup j.table 0 (j.word.take k) with
      | (t, none) => t.executeFrom j.setup j.table k [j.word[k]]
      | (t, some fault) => (t, some fault) := by
  -- the symbol at `k` is the last of the longer word, executed after the first `k` symbols
  have happend := executeFrom_append j.setup j.table 0 (j.word.take k) [j.word[k]] j.start
  rw [List.length_take_of_le (Nat.le_of_lt hk), Nat.zero_add] at happend
  rw [List.take_add_one, List.getElem?_eq_getElem hk, Option.toList_some]
  exact happend

/-- The journey goes on to the next position if the symbol between is executed. -/
theorem reaches_succ_iff (hk : k < j.word.length) :
    j.Reaches (k + 1) ↔ j.Reaches k ∧
      (j.turtle k).execute j.setup j.table k j.word[k] = .ok (j.turtle (k + 1)) := by
  unfold Reaches turtle
  rw [executeFrom_take_succ hk]
  -- the longer word is executed only after a shorter one without a fault
  obtain ⟨t, fault | fault⟩ := j.start.executeFrom j.setup j.table 0 (j.word.take k)
  · simp only [executeFrom]
    cases t.execute j.setup j.table k j.word[k] with
    | error fault => simp
    | ok t' => simp
  · simp

/-- **One step of a journey.** -/
theorem step_of_executes (hk : k < j.word.length) (h : j.Executes k) :
    Step j.setup k j.word[k] (j.turtle k) (j.operation? k) (j.turtle (k + 1)) := by
  rw [operation?_of_lt hk]
  exact step_of_execute ((reaches_succ_iff hk).1 h.2).2

/-- From the symbol at fault on, and after the end of the word, the turtle stays as it is. -/
theorem turtle_succ_of_not_executes (h : ¬ j.Executes k) : j.turtle (k + 1) = j.turtle k := by
  -- past the end of the word there is no symbol to execute, so the two prefixes are the same
  rcases Nat.lt_or_ge k j.word.length with hk | hk
  · have hfault : ¬ j.Reaches (k + 1) := fun hreaches => h ⟨hk, hreaches⟩
    unfold Reaches at hfault
    unfold turtle
    rw [executeFrom_take_succ hk] at hfault ⊢
    generalize j.start.executeFrom j.setup j.table 0 (j.word.take k) = outcome at hfault
    -- the fault is at position `k` itself, or it was met before
    obtain ⟨t, fault | fault⟩ := outcome
    · simp only [executeFrom] at hfault ⊢
      cases hexecute : t.execute j.setup j.table k j.word[k] with
      | error fault => rfl
      | ok t' =>
        -- the symbol would be executed and the next position reached
        rw [hexecute] at hfault
        exact absurd rfl hfault
    · rfl
  · unfold turtle
    rw [List.take_of_length_le hk, List.take_of_length_le (Nat.le_succ_of_le hk)]

/-- A journey that is complete reaches every position. -/
theorem Complete.reaches (h : j.Complete) (k : Nat) : j.Reaches k := by
  -- the word is executed whole, so each of its prefixes is
  have hwhole : j.start.executeFrom j.setup j.table 0 (j.word.take k ++ j.word.drop k) =
      ((j.start.executeFrom j.setup j.table 0 j.word).1, none) := by
    rw [List.take_append_drop]
    exact Prod.ext rfl h
  obtain ⟨t, hbefore, -⟩ := executeFrom_append_eq_none_iff.1 hwhole
  exact congrArg Prod.snd hbefore

/-- **One step of a complete journey.** -/
theorem step (h : j.Complete) (hk : k < j.word.length) :
    Step j.setup k j.word[k] (j.turtle k) (j.operation? k) (j.turtle (k + 1)) :=
  step_of_executes hk ⟨hk, h.reaches (k + 1)⟩

/-- **Induction along a complete journey.** -/
theorem induction {P : Nat → Prop} (h : j.Complete) (zero : P 0)
    (succ : ∀ k, (hk : k < j.word.length) →
      Step j.setup k j.word[k] (j.turtle k) (j.operation? k) (j.turtle (k + 1)) → P k → P (k + 1)) :
    ∀ k, k ≤ j.word.length → P k := by
  intro k hk
  induction k with
  | zero => exact zero
  | succ k ih => exact succ k hk (step h hk) (ih (Nat.le_of_succ_le hk))

/-- A run is a complete journey, at the end of which the turtle is closed, or one with a fault. -/
theorem cases_of_run {t : Turtle α} {fault : Option Fault}
    (h : j.start.run j.setup j.table j.word = (t, fault)) :
    (j.Complete ∧ fault = none ∧ t = (j.turtle j.word.length).close j.word.length) ∨
      (¬ j.Complete ∧ fault ≠ none ∧ t = j.turtle j.word.length) := by
  unfold Complete turtle
  rw [List.take_length]
  unfold run at h
  -- the program closes the turtle in its first case only
  split at h
  · next t₁ hexecute =>
    rw [hexecute]
    exact .inl ⟨rfl, (Prod.mk.inj h).2.symm, (Prod.mk.inj h).1.symm⟩
  · next t₁ fault hexecute =>
    obtain ⟨rfl, rfl⟩ := Prod.mk.inj h
    rw [hexecute]
    exact .inr ⟨nofun, nofun, rfl⟩

/-- What holds of the turtle behind the last symbol and lasts when it is closed holds at the end of the
run, whether the run succeeds or not. -/
theorem run_of_close {P : Turtle α → Prop} (h : P (j.turtle j.word.length))
    (hclose : ∀ (t : Turtle α) (n : Nat), P t → P (t.close n)) :
    P (j.start.run j.setup j.table j.word).1 := by
  rcases cases_of_run (Prod.eta (j.start.run j.setup j.table j.word)).symm with
    ⟨-, -, hlast⟩ | ⟨-, -, hlast⟩
  · rw [hlast]
    exact hclose _ _ h
  · rw [hlast]
    exact h

/-- A run that succeeds is a complete journey, at the end of which the turtle is closed. -/
theorem of_run {t : Turtle α} (h : j.start.run j.setup j.table j.word = (t, none)) :
    j.Complete ∧ t = (j.turtle j.word.length).close j.word.length := by
  rcases cases_of_run h with ⟨hcomplete, -, ht⟩ | ⟨-, hfault, -⟩
  · exact ⟨hcomplete, ht⟩
  · exact absurd rfl hfault

/-- A run with a fault ends at a symbol. -/
theorem exists_endsAt {t : Turtle α} {fault : Fault}
    (h : j.start.run j.setup j.table j.word = (t, some fault)) :
    ∃ k, j.EndsAt k fault ∧ j.turtle k = t := by
  -- a run fails just where the word does: nothing is closed after a fault
  have hexecute : j.start.executeFrom j.setup j.table 0 j.word = (t, some fault) := by
    unfold run at h
    split at h
    · cases (Prod.mk.inj h).2
    · next hexecute => rwa [hexecute]
  -- the fault is at one symbol, and the word up to there gives the turtle of that position
  obtain ⟨k, s, hs, hbefore, hfault⟩ := exists_of_executeFrom_eq_some hexecute
  rw [Nat.zero_add] at hfault
  have hturtle : j.turtle k = t := congrArg Prod.fst hbefore
  exact ⟨k, ⟨congrArg Prod.snd hbefore, s, hs, hturtle ▸ hfault⟩, hturtle⟩

/-- A fresh turtle has drawn nothing and has nothing open. -/
theorem of_initial {depth : Int} (h : Turtle.initial j.setup depth = .ok j.start) :
    j.start.outline = none ∧ j.start.drawing = {} := by
  obtain ⟨frame, hstart⟩ := exists_of_initial h
  rw [hstart]
  exact ⟨rfl, rfl⟩

end Journey

/-! ### Journeys on a grid -/

namespace Grid

/-- The cosine and the sine of a quarter turn, with angles in degrees. -/
def cosSin (angle : Int) : Option (Int × Int) :=
  if angle % 360 = 0 then some (1, 0)
  else if angle % 360 = 90 then some (0, 1)
  else if angle % 360 = 180 then some (-1, 0)
  else if angle % 360 = 270 then some (0, -1)
  else none

/-- Powers; with a negative exponent their whole part. -/
def power (base exponent : Int) : Except WholePowerFault Int :=
  if 0 ≤ exponent then .ok (base.pow exponent.toNat)
  else if base = 0 then .error .zeroToNegative
  else .ok (1 / base.pow exponent.natAbs)

/-- Whole numbers as coordinates. Frames have vectors of length one, so no root or quotient that scales
them has a rest. -/
scoped instance : Scalar Int where
  zero := 0
  one := 1
  decLt := Int.decLt
  sqrt n := n.toNat.sqrt
  power := power
  radians degrees := degrees
  halfTurn := 180
  cosSin := cosSin

/-- At the origin along the first axis, with steps of one, quarter turns and eight colors. -/
def setup : Setup Int where
  start := ⟨0, 0, 0⟩
  heading := 0
  angle := 90
  step := 1
  width := 1
  widthDelta := 1
  palette := some 8
  width_nonneg := by decide
  palette_pos := by simp

end Grid

open scoped Grid in
/-- A word of the customary names before a turtle on the grid. -/
def Journey.onGrid (word : List (Symbol Int)) : Journey Int where
  setup := Grid.setup
  table := .standard
  word
  start :=
    { pose :=
        { position := ⟨0, 0, 0⟩, frame := ⟨⟨1, 0, 0⟩, ⟨0, 1, 0⟩, ⟨0, 0, 1⟩⟩, width := 1, color := 0,
          contraction := 0 } }

open scoped Grid in
/-- The turtle before a word on the grid is a fresh one. -/
theorem Journey.initial_onGrid (word : List (Symbol Int)) :
    Turtle.initial (onGrid word).setup 0 = .ok (onGrid word).start := rfl

end Arbor
