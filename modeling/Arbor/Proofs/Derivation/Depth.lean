import Arbor.Derivation.Step
import Arbor.Proofs.Derivation.Selection
import Mathlib.Data.List.Basic
import Mathlib.Logic.Function.Iterate

/-!
# Depth composes

A derivation is as many steps as its depth says, all from one source. So it may be interrupted after
any number of steps and be gone on with from the word and the source that there are then, and
nothing shows it (`Grammar.iterate_add`).

This holds also where a step fails. `Grammar.iterate` says why it fails, but not which draws it had
made by then, while a source that is shared with others goes on from there. The *course* of a
derivation (`Grammar.course`) keeps both: the word or the error that single steps come to, one after
the other, and the source that they leave in either case. It is a step repeated, so it composes by
itself; what has to be proved is that a derivation is its course without the source of a failure
(`Grammar.derive_eq_course`).

A step that fails leaves the source as the symbol at fault has left it. A choice that fails has made
no draw (`attemptSelect_of_error`). A successor that fails comes after the draw for its rule
(`Grammar.attemptSymbol_eq`).
-/

namespace Arbor

open Outcome

namespace Grammar

variable {σ : Type} [Draws σ]

/-! ### One step -/

/-- Replacing one symbol, with the source that is left where it succeeds and where it fails. -/
def attemptSymbol (gr : Grammar) (ctx : Neighbours) (position : Nat) (s : Symbol Float) (g : σ) :
    Except StepError Word × σ :=
  match attemptSelect s (gr.rulesFor s.name) ctx g with
  | (.error e, g) => (.error (.noValue s position e), g)
  | (.ok chosen, g) => ((replacement s chosen).mapError (.ofProduce s position), g)

/-- A step over the rest of a word, with the source that is left in either case. After the first
symbol that cannot be replaced no more is drawn. -/
def attemptFrom (gr : Grammar) (left : Option String) (position : Nat) :
    Word → σ → Except StepError Word × σ
  | [], g => (.ok [], g)
  | s :: rest, g =>
    let ctx : Neighbours := { left, right := rest.head?.map Symbol.name }
    match gr.attemptSymbol ctx position s g with
    | (.error e, g) => (.error e, g)
    | (.ok out, g) =>
      let (outs, g) := gr.attemptFrom (some s.name) (position + 1) rest g
      (outs.map (out ++ ·), g)

/-- **One step**, with the source that is left in either case. -/
def attempt (gr : Grammar) (w : Word) (g : σ) : Except StepError Word × σ :=
  gr.attemptFrom none 0 w g

variable (gr : Grammar)

/-- The source where a replacement fails: a failing choice has not drawn, and a successor that fails comes
after the draw. -/
theorem attemptSymbol_eq (ctx : Neighbours) (position : Nat) (s : Symbol Float) (g : σ) :
    gr.attemptSymbol ctx position s g =
      match select s (gr.rulesFor s.name) ctx g with
      | .error e => (.error (.noValue s position e), g)
      | .ok (chosen, g') => ((replacement s chosen).mapError (.ofProduce s position), g') := by
  unfold attemptSymbol
  rw [attemptSelect_eq]
  cases select s (gr.rulesFor s.name) ctx g <;> rfl

/-- A replacement is its attempt without the source of a failure. -/
theorem replace_eq_attemptSymbol (ctx : Neighbours) (position : Nat) (s : Symbol Float) (g : σ) :
    gr.replace ctx position s g = settled (gr.attemptSymbol ctx position s g) := by
  unfold replace
  rw [attemptSymbol_eq]
  cases select s (gr.rulesFor s.name) ctx g with
  | error e => rfl
  | ok found =>
    -- the choice has succeeded, and the successor is built with no further draw
    simp only [mapError_ok, ok_bind, settled]
    cases (replacement s found.1).mapError (StepError.ofProduce s position) <;> rfl

/-- A step over the rest of a word is its attempt without the source of a failure. -/
theorem stepFrom_eq_attemptFrom (left : Option String) (position : Nat) (w : Word) (g : σ) :
    gr.stepFrom left position w g = settled (gr.attemptFrom left position w g) := by
  induction w generalizing left position g with
  | nil => rfl
  | cons s w ih =>
    simp only [stepFrom, attemptFrom, replace_eq_attemptSymbol]
    obtain ⟨here, g₁⟩ :=
      gr.attemptSymbol { left, right := w.head?.map Symbol.name } position s g
    cases here with
    -- after a symbol that fails neither of the two goes on
    | error e => rfl
    | ok out =>
      -- the symbols after it start from the source that it has left
      simp only [settled, Except.map, ok_bind, ih]
      obtain ⟨others, g₂⟩ := gr.attemptFrom (some s.name) (position + 1) w g₁
      cases others <;> rfl

/-- A step is its attempt without the source of a failure. -/
theorem step_eq_attempt (w : Word) (g : σ) : gr.step w g = settled (gr.attempt w g) :=
  gr.stepFrom_eq_attemptFrom none 0 w g

/-! ### Steps one after the other -/

/-- One step more, if there is a word to go on from. -/
def onward (gr : Grammar) : Except StepError Word × σ → Except StepError Word × σ
  | (.ok w, g) => gr.attempt w g
  | (.error e, g) => (.error e, g)

/-- **Course** of a derivation: what a number of single steps come to, one after the other, with the
source that they leave in either case. -/
def course (gr : Grammar) (w : Word) (depth : Nat) (g : σ) : Except StepError Word × σ :=
  gr.onward^[depth] (.ok w, g)

/-- After a failure nothing changes any more. -/
theorem onward_error (n : Nat) (e : StepError) (g : σ) :
    gr.onward^[n] (.error e, g) = (.error e, g) :=
  Function.iterate_fixed rfl n

/-- A course may be interrupted: it goes on from what its first part has come to. -/
theorem course_add (w : Word) (m n : Nat) (g : σ) :
    gr.course w (m + n) g =
      match gr.course w m g with
      | (.ok w', g') => gr.course w' n g'
      | (.error e, g') => (.error e, g') := by
  -- the last `n` steps are taken from what the first `m` have come to
  rw [course, Nat.add_comm, Function.iterate_add_apply]
  change gr.onward^[n] (gr.course w m g) = _
  obtain ⟨outcome, g'⟩ := gr.course w m g
  cases outcome with
  | ok w' => rfl
  | error e => exact gr.onward_error n e g'

/-- A course begins with one step. -/
theorem course_succ (w : Word) (depth : Nat) (g : σ) :
    gr.course w (depth + 1) g =
      match gr.attempt w g with
      | (.ok w', g') => gr.course w' depth g'
      | (.error e, g') => (.error e, g') := by
  rw [Nat.add_comm]
  exact gr.course_add w 1 depth g

/-- **A derivation is its course**, without the source of a failure. -/
theorem derive_eq_course (w : Word) (depth : Nat) (g : σ) :
    gr.derive w depth g = settled (gr.course w depth g) := by
  induction depth generalizing w g with
  | zero => rfl
  -- the word and the source are general, since the first step leads to others
  | succ depth ih =>
    rw [derive_succ, step_eq_attempt, course_succ]
    obtain ⟨outcome, g'⟩ := gr.attempt w g
    cases outcome with
    | ok w' => exact ih w' g'
    | error e => rfl

/-- The same of a depth that is not negative by mistake. -/
theorem iterate_eq_course (w : Word) {depth : Int} (hdepth : 0 ≤ depth) (g : σ) :
    gr.iterate (some w) depth g = (settled (gr.course w depth.toNat g)).mapError .step := by
  rw [iterate, if_neg (Int.not_lt.2 hdepth), Option.getD_some, derive_eq_course]

/-- A derivation with a start of its own or the one of the grammar. -/
theorem iterate_natCast (start : Option Word) (depth : Nat) (g : σ) :
    gr.iterate start depth g = (gr.derive (start.getD gr.start) depth g).mapError .step := by
  rw [iterate, if_neg (Int.not_lt.2 (Int.natCast_nonneg depth)), Int.toNat_natCast]

/-- A derivation goes on from where another one has stopped. -/
theorem derive_add (w : Word) (m n : Nat) (g : σ) :
    gr.derive w (m + n) g = gr.derive w m g >>= fun p => gr.derive p.1 n p.2 := by
  rw [derive_eq_course, derive_eq_course, course_add]
  obtain ⟨outcome, g'⟩ := gr.course w m g
  cases outcome with
  | ok w' => exact (gr.derive_eq_course w' n g').symm
  | error e => rfl

/-- **Depth composes.** A derivation of `m + n` steps is one of `m` steps and another of `n` steps
from the word and the source that there are then, and it is so many single steps. They come to the
same word and leave the same source, or there is the same error, with the source left at the same
place. If the first `m` steps fail, every derivation of as many steps or more fails with this error
and leaves the source there, and it has no word. -/
theorem iterate_add (start : Option Word) (m n : Nat) (g : σ) :
    let w := start.getD gr.start
    (∀ v (g : σ), gr.step v g = settled (gr.attempt v g)) ∧
    (∀ depth : Nat, gr.iterate start depth g =
      (settled (gr.course w depth g)).mapError .step) ∧
    gr.iterate start (m + n : Nat) g =
      (gr.iterate start m g >>= fun p => gr.iterate (some p.1) n p.2) ∧
    (∀ w' g', gr.iterate start m g = .ok (w', g') → gr.course w (m + n) g = gr.course w' n g') ∧
    ∀ e, gr.iterate start m g = .error e → ∃ cause left, e = .step cause ∧
      ∀ depth : Nat, m ≤ depth →
        gr.iterate start depth g = .error e ∧ gr.course w depth g = (.error cause, left) := by
  intro w
  have hcourse : ∀ depth : Nat, gr.iterate start depth g =
      (settled (gr.course w depth g)).mapError .step := fun depth => by
    rw [iterate_natCast, derive_eq_course]
  refine ⟨gr.step_eq_attempt, hcourse, ?_, fun w' g' h => ?_, fun e h => ?_⟩
  · -- a derivation of two parts is their sequence, and the wording of errors is put on at the end
    rw [iterate_natCast, iterate_natCast, derive_add]
    cases gr.derive w m g with
    | ok p => exact (gr.iterate_natCast (some p.1) n p.2).symm
    | error e => rfl
  · -- a derivation that succeeds has a course without a failure, which goes on from its end
    rw [hcourse, mapError_eq_ok_iff, settled_eq_ok_iff] at h
    rw [course_add, h]
  · -- one that fails has a course with the same cause, and with a source
    rw [hcourse, mapError_eq_error_iff] at h
    obtain ⟨cause, hfails, rfl⟩ := h
    obtain ⟨left, hleft⟩ := settled_eq_error_iff.1 hfails
    refine ⟨cause, left, rfl, fun depth hdepth => ?_⟩
    -- the steps behind the first `m` find no word to go on from
    have hlonger : gr.course w depth g = (.error cause, left) := by
      rw [← Nat.add_sub_of_le hdepth, course_add, hleft]
    rw [hcourse, hlonger]
    exact ⟨rfl, rfl⟩

/-- A tip that counts down to a division by zero. Two steps and a third are three steps, and the
third fails after its draw; with any more steps the derivation is stuck there, three draws after its
start. -/
theorem iterate_add_stuck :
    let shoot : Rule :=
      { predecessor := "A", params := ["x"], weight := some 3.0
        successor := [⟨"A", [.bin .sub (.var "x") (.num 1.0)], false⟩,
          ⟨"B", [.bin .div (.num 1.0) (.var "x")], false⟩] }
    let wither : Rule := { predecessor := "A", params := ["x"], weight := some 1.0 }
    let gr : Grammar := { start := [⟨"A", [2.0], false⟩], groups := [("A", [shoot, wither])] }
    let after (n : Nat) : Counted Replay := { source := ⟨#[0.25], n⟩, count := n }
    let w : Word := [⟨"A", [0.0], false⟩, ⟨"B", [1.0], false⟩, ⟨"B", [0.5], false⟩]
    let stuck : StepError := .noValue ⟨"A", [0.0], false⟩ 0 (.divisionByZero 1.0)
    gr.iterate none 2 (after 0) = .ok (w, after 2) ∧
      gr.course gr.start (2 + 1) (after 0) = gr.course w 1 (after 2) ∧
      ∀ depth : Nat, 3 ≤ depth → gr.iterate none depth (after 0) = .error (.step stuck) ∧
        gr.course gr.start depth (after 0) = (.error stuck, after 3) := by
  intro shoot wither gr after w stuck
  have htwo : gr.iterate none 2 (after 0) = .ok (w, after 2) := by decide +kernel
  have hthree : gr.iterate none 3 (after 0) = .error (.step stuck) := by decide +kernel
  have hleft : gr.course gr.start 3 (after 0) = (.error stuck, after 3) := by decide +kernel
  obtain ⟨-, -, -, hgoesOn, -⟩ := gr.iterate_add none 2 1 (after 0)
  obtain ⟨-, -, -, -, hstuck⟩ := gr.iterate_add none 3 0 (after 0)
  obtain ⟨cause, left, -, hdeeper⟩ := hstuck _ hthree
  have hends : (.error cause, left) = (Except.error stuck, after 3) :=
    (hdeeper 3 (Nat.le_refl 3)).2.symm.trans hleft
  refine ⟨htwo, hgoesOn w (after 2) htwo, fun depth hdepth => ⟨(hdeeper depth hdepth).1, ?_⟩⟩
  exact (hdeeper depth hdepth).2.trans hends

end Grammar

end Arbor
