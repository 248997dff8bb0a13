import Arbor.Proofs.Turtle.Journey
import Mathlib.Data.List.Chain

/-!
# The drawn path

The lines of a drawing are the moves of its word that are made with a line, in order and nothing else,
each from the place before the move to the place after it (`Journey.lines_of_run`). So the path has no
gaps but those that the word makes: a line ends in the very point where the next one starts, unless a
move without a line or a way back has led somewhere between them. The first line starts where the turtle
does, unless a move without a line comes before it; ways back do not count there, since they lead to
poses kept on the way, and all these are at the start.

Equality of points is no matter of rounding here. The turtle is in its place until something moves it,
and only a move that is made and a way back from a kept pose do (`Turtle.Step.position_eq`). A move that
is too long and a way back that leads nowhere do not, nor does what comes after a fault.

The path is followed position by position (`Journey.Traced`). Two things are carried along besides the
lines drawn so far: where the last line ended, the turtle still is; and before the first line, so are
all poses that it has or can go back to at the start. Each is given up when the word makes a gap.
-/

namespace Arbor

open Turtle

variable {α : Type} [Scalar α]

namespace Journey

/-! ### What changes the place of the turtle -/

section

variable (j : Journey α) (draw : Bool) (k : Nat)

/-- **Moves.** At position `k` a move is made, with a line or without. One that is too long is not
made. -/
def Moves : Prop :=
  j.Executes k ∧ ∃ s ∈ j.word[k]?, ∃ contracting,
    j.table.operation? s = some (.forward draw contracting) ∧
      ((j.turtle k).stride j.setup contracting s).isOk = true

instance : Decidable (j.Moves draw k) :=
  inferInstanceAs (Decidable (_ ∧ ∃ s ∈ j.word[k]?, ∃ _, _ ∧ _))

/-- **Ways back.** At position `k` the turtle goes back to a pose that it has kept. -/
def Returns : Prop := j.Executes k ∧ j.operation? k = some .pop ∧ (j.turtle k).stack ≠ []

instance : Decidable (j.Returns k) := inferInstanceAs (Decidable (_ ∧ _ ∧ _))

/-- The line of a move: from the place before it to the place after it, with the color and the width in
force. -/
def line : Line α where
  start := j.place k
  finish := j.place (k + 1)
  color := (j.turtle k).pose.color
  width := (j.turtle k).pose.width

/-- The positions before `n` where a move is made with a line. -/
def strokes (n : Nat) : List Nat := (List.range n).filter fun k => j.Moves true k

/-- Between two positions the turtle neither moves without a line nor goes back. -/
def Unbroken (k n : Nat) : Prop := ∀ m, k < m → m < n → ¬ j.Moves false m ∧ ¬ j.Returns m

end

variable {j : Journey α} {draw : Bool} {k n : Nat}

/-- A move is an operation of that kind whose length exists. -/
theorem moves_iff (hk : k < j.word.length) :
    j.Moves draw k ↔ j.Executes k ∧ ∃ contracting distance,
      j.operation? k = some (.forward draw contracting) ∧
        (j.turtle k).stride j.setup contracting j.word[k] = .ok distance := by
  have hok (x : Except Numeral.WholePowerFault α) : x.isOk = true ↔ ∃ a, x = .ok a := by
    cases x with
    | ok a => simp [Except.isOk, Except.toBool]
    | error e => simp [Except.isOk, Except.toBool]
  simp only [Moves, operation?_of_lt hk, List.getElem?_eq_getElem hk, Option.mem_some_iff,
    exists_eq_left', hok, exists_and_left]

/-- A move leads from the turtle before it to the one after it. -/
theorem Moves.turtle_succ (h : j.Moves draw k) :
    ∃ distance, j.turtle (k + 1) = (j.turtle k).move distance draw := by
  obtain ⟨hexecutes, contracting, distance, hoperation, hlength⟩ := (moves_iff h.1.1).1 h
  have hstep := step_of_executes h.1.1 hexecutes
  rw [hoperation] at hstep
  exact ⟨distance, hstep.of_forward hlength⟩

/-- Only a move with a line adds one. -/
theorem lines_succ (h : ¬ j.Moves true k) :
    (j.turtle (k + 1)).drawing.lines = (j.turtle k).drawing.lines := by
  by_cases hk : j.Executes k
  · rcases (step_of_executes hk.1 hk).lines_cases with hlines | ⟨_, _, hoperation, hlength, -⟩
    · exact hlines
    · exact absurd ((moves_iff hk.1).2 ⟨hk, _, _, hoperation, hlength⟩) h
  · rw [turtle_succ_of_not_executes hk]

section Still

variable (hstill : ∀ draw, ¬ j.Moves draw k)

include hstill

/-- Where no move is made, none can be. -/
theorem stride_ne_ok (hk : j.Executes k) (hlength : k < j.word.length) (draw contracting : Bool)
    (distance : α) (hoperation : j.operation? k = some (.forward draw contracting)) :
    (j.turtle k).stride j.setup contracting j.word[k] ≠ .ok distance := fun hstride =>
  hstill draw ((moves_iff hlength).2 ⟨hk, contracting, distance, hoperation, hstride⟩)

/-- The turtle stays where it is. -/
theorem place_succ (hreturns : ¬ j.Returns k) : j.place (k + 1) = j.place k := by
  by_cases hk : j.Executes k
  · refine (step_of_executes hk.1 hk).position_eq (stride_ne_ok hstill hk hk.1) fun hpop => ?_
    by_contra hkept
    exact hreturns ⟨hk, hpop, hkept⟩
  · rw [place, turtle_succ_of_not_executes hk, place]

/-- The poses that the turtle has or can go back to are where poses were. -/
theorem positions_succ {P : Vec α → Prop} (h : ∀ p ∈ (j.turtle k).poses, P p.position) :
    ∀ p ∈ (j.turtle (k + 1)).poses, P p.position := by
  by_cases hk : j.Executes k
  · refine (step_of_executes hk.1 hk).forall_poses (P := fun p => P p.position) ?_ ?_ h
    · intro draw contracting distance hoperation hstride
      exact absurd hstride (stride_ne_ok hstill hk hk.1 draw contracting distance hoperation)
    · intro q hq hadjusted
      rwa [hadjusted.position_eq]
  · rwa [turtle_succ_of_not_executes hk]

end Still

/-! ### The path up to a position -/

/-- One position later there is a stroke more if a line is drawn there, and none otherwise. -/
theorem strokes_succ :
    j.strokes (n + 1) = j.strokes n ++ if j.Moves true n then [n] else [] := by
  rw [strokes, List.range_succ, List.filter_append, ← strokes]
  by_cases h : j.Moves true n
  · rw [List.filter_cons_of_pos (by simpa using h), List.filter_nil, if_pos h]
  · rw [List.filter_cons_of_neg (by simpa using h), List.filter_nil, if_neg h]

/-- The strokes before a position come before it. -/
theorem lt_of_mem_strokes (h : k ∈ j.strokes n) : k < n :=
  List.mem_range.1 (List.mem_of_mem_filter h)

/-- **The path** before the symbol of position `n`. -/
structure Traced (j : Journey α) (n : Nat) : Prop where
  lines : (j.turtle n).drawing.lines.toList = (j.strokes n).map j.line
  /-- A line starts where the one before it ends. -/
  chain : (j.strokes n).IsChain fun k m => j.Unbroken k m → (j.line k).finish = (j.line m).start
  /-- The turtle is where the last line ends. -/
  last : ∀ k ∈ (j.strokes n).getLast?, j.Unbroken k n → (j.line k).finish = j.place n
  /-- The first line starts where the turtle does. -/
  first : ∀ k ∈ (j.strokes n).head?, (∀ m, m < k → ¬ j.Moves false m) →
    (j.line k).start = j.setup.start
  /-- Before the first line all poses are there. -/
  still : j.strokes n = [] → (∀ m, m < n → ¬ j.Moves false m) →
    ∀ p ∈ (j.turtle n).poses, p.position = j.setup.start

/-- A move with a line goes on from where the turtle is. -/
theorem Traced.step_of_moves (h : j.Traced n) (hmoves : j.Moves true n) : j.Traced (n + 1) := by
  have hstrokes : j.strokes (n + 1) = j.strokes n ++ [n] := by rw [strokes_succ, if_pos hmoves]
  obtain ⟨distance, hturtle⟩ := hmoves.turtle_succ
  refine ⟨?_, ?_, ?_, ?_, ?_⟩
  · have hline : j.line n = ⟨(j.turtle n).pose.position, ((j.turtle n).pose.moved distance).position,
        (j.turtle n).pose.color, (j.turtle n).pose.width⟩ := by
      rw [line, place, place, hturtle]
      rfl
    calc (j.turtle (n + 1)).drawing.lines.toList
        = (j.turtle n).drawing.lines.toList ++ [j.line n] := by
          rw [hline, hturtle]
          exact Array.toList_push
      _ = (j.strokes (n + 1)).map j.line := by
          rw [h.lines, hstrokes, List.map_append, List.map_singleton]
  · rw [hstrokes, List.isChain_append]
    refine ⟨h.chain, List.isChain_singleton _, fun k hk m hm => ?_⟩
    obtain rfl : n = m := by simpa using hm
    exact h.last k hk
  · intro k hk _
    rw [hstrokes, List.getLast?_append_of_ne_nil _ (List.cons_ne_nil _ _)] at hk
    obtain rfl : n = k := by simpa using hk
    rfl
  · intro k hk hbefore
    rw [hstrokes] at hk
    cases hnone : j.strokes n with
    | nil =>
      -- this is the first line, and up to here the turtle has not moved
      rw [hnone] at hk
      obtain rfl : n = k := by simpa using hk
      exact h.still hnone hbefore _ List.mem_cons_self
    | cons m rest =>
      rw [hnone] at hk
      exact h.first k (by rw [hnone]; exact hk) hbefore
  · intro hnone
    rw [hstrokes] at hnone
    exact absurd (List.append_eq_nil_iff.1 hnone).2 (List.cons_ne_nil _ _)

/-- Nothing else adds a line, and the turtle stays unless the word makes a gap. -/
theorem Traced.step_of_not_moves (h : j.Traced n) (hmoves : ¬ j.Moves true n) : j.Traced (n + 1) := by
  have hstrokes : j.strokes (n + 1) = j.strokes n := by
    rw [strokes_succ, if_neg hmoves, List.append_nil]
  have hstill (hgap : ¬ j.Moves false n) : ∀ draw, ¬ j.Moves draw n := by
    intro draw
    cases draw with
    | false => exact hgap
    | true => exact hmoves
  refine ⟨?_, ?_, ?_, ?_, ?_⟩
  · -- no line is drawn here, so that lines and strokes are those of the position before
    rw [lines_succ hmoves, h.lines, hstrokes]
  · rw [hstrokes]
    exact h.chain
  · -- a way that is unbroken up to here was so one symbol earlier, and this one does not break it
    intro k hk hunbroken
    rw [hstrokes] at hk
    have hkn : k < n := lt_of_mem_strokes (List.mem_of_getLast? hk)
    obtain ⟨hgap, hreturns⟩ := hunbroken n hkn (Nat.lt_succ_self n)
    rw [place_succ (hstill hgap) hreturns]
    exact h.last k hk fun m hkm hmn => hunbroken m hkm (Nat.lt_succ_of_lt hmn)
  · rw [hstrokes]
    exact h.first
  · intro hnone hbefore
    rw [hstrokes] at hnone
    -- nothing has been drawn yet, and the turtle is where it started
    refine positions_succ (P := (· = j.setup.start)) (hstill (hbefore n (Nat.lt_succ_self n))) ?_
    exact h.still hnone fun m hm => hbefore m (Nat.lt_succ_of_lt hm)

/-- **The path along a journey**, whether or not a fault ends it. -/
theorem traced {depth : Int} (hfresh : Turtle.initial j.setup depth = .ok j.start) (n : Nat) :
    j.Traced n := by
  induction n with
  | zero =>
    obtain ⟨frame, hstart⟩ := exists_of_initial hfresh
    refine ⟨?_, .nil, nofun, nofun, fun _ _ p hp => ?_⟩
    · rw [turtle_zero, hstart]
      rfl
    · rw [turtle_zero, hstart] at hp
      rw [List.mem_singleton.1 hp]
  | succ n ih =>
    by_cases hmoves : j.Moves true n
    · exact ih.step_of_moves hmoves
    · exact ih.step_of_not_moves hmoves

/-- **The drawn path has no gaps.** The lines of a run, with a fault or without, are those of the moves
made with a line, each with the color and the width in force. The first starts at the start of the
turtle if no move without a line is made before it. Of two lines that follow each other the first ends
where the second starts, if between them no move without a line is made and the turtle does not go
back. -/
theorem lines_of_run {depth : Int} {t : Turtle α} {fault : Option Fault}
    (hfresh : Turtle.initial j.setup depth = .ok j.start)
    (hrun : j.start.run j.setup j.table j.word = (t, fault)) :
    t.drawing.lines.toList = (j.strokes j.word.length).map j.line ∧
    (∀ k ∈ (j.strokes j.word.length).head?, (∀ m, m < k → ¬ j.Moves false m) →
      (j.line k).start = j.setup.start) ∧
    (j.strokes j.word.length).IsChain fun k n =>
      (∀ m, k < m → m < n → ¬ j.Moves false m ∧ ¬ j.Returns m) →
        (j.line k).finish = (j.line n).start := by
  have htraced := traced hfresh j.word.length
  refine ⟨?_, htraced.first, htraced.chain⟩
  rw [← htraced.lines]
  rcases cases_of_run hrun with ⟨-, -, rfl⟩ | ⟨-, -, rfl⟩
  · rw [close_lines]
  · rfl

open scoped Grid in
/-- A way back that leads nowhere before the first line, a turn, a patch and the beginning of a branch
between the first two, then a way back, a move without a line and a turn that is no quarter turn. -/
theorem lines_of_run_detours :
    let plain (name : String) : Symbol Int := ⟨name, [], false⟩
    let j := onGrid [plain "]", plain "F", plain "+", ⟨"F", [2], true⟩, plain "[", plain "F", plain "]",
      plain "F", plain "f", plain "F", ⟨"+", [45], false⟩, plain "F"]
    ∃ t, j.start.run j.setup j.table j.word = (t, some .infiniteAngle) ∧
      j.strokes j.word.length = [1, 5, 7, 9] ∧
      t.drawing.lines.toList = [j.line 1, j.line 5, j.line 7, j.line 9] ∧
      (j.line 1).start = j.setup.start ∧ (j.line 1).finish = (j.line 5).start ∧
      (j.line 5).finish ≠ (j.line 7).start ∧ (j.line 7).finish ≠ (j.line 9).start := by
  intro plain j
  have hrun : j.start.run j.setup j.table j.word =
      ((j.start.run j.setup j.table j.word).1, some .infiniteAngle) :=
    Prod.ext rfl (by decide +kernel)
  have hstrokes : j.strokes j.word.length = [1, 5, 7, 9] := by decide +kernel
  -- with all moves known, the rest is read off the general statement
  have hfirst : ∀ m, m < 1 → ¬ j.Moves false m := by decide +kernel
  have hunbroken : ∀ m, m < 5 → 1 < m → ¬ j.Moves false m ∧ ¬ j.Returns m := by decide +kernel
  obtain ⟨hlines, hstart, hchain⟩ := lines_of_run (initial_onGrid _) hrun
  rw [hstrokes] at hlines hstart hchain
  exact ⟨_, hrun, hstrokes, hlines, hstart 1 rfl hfirst,
    (List.isChain_cons_cons.1 hchain).1 fun m hkm hmn => hunbroken m hmn hkm,
    by decide +kernel, by decide +kernel⟩

end Journey

end Arbor
