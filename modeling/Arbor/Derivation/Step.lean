import Arbor.Derivation.Selection
import Arbor.Grammar.Basic

/-!
# Derivations

A step replaces all symbols of a word at once: every symbol sees its neighbours as they were before
the step. Symbols draw from the source in their order from left to right, and the first symbol that
cannot be replaced ends the step (`StepError`). A derivation is a number of steps one after the
other, all from one source.

* `Grammar.replace`: what takes the place of one symbol;
* `Grammar.step`: one step, from the left neighbour and the position of the first symbol on
  (`stepFrom`);
* `Grammar.derive` and `Grammar.iterate`: several steps, the latter refusing a negative number of
  them.
-/

namespace Arbor

/-- Why a step fails. -/
inductive StepError
  /-- A condition or an argument has no value at the symbol of this position. -/
  | noValue (symbol : Symbol Float) (position : Nat) (cause : EvalError)
  /-- A rule was chosen for a symbol with another number of parameters. -/
  | arity (cause : Rule.ArityMismatch)
  deriving DecidableEq, Repr

/-- The wording of an error. -/
def StepError.message : StepError → String
  | noValue s i cause => s!"cannot rewrite {s.text} at position {i}: {cause.message}"
  | arity cause => cause.message

/-- Why a derivation fails. -/
inductive DeriveError
  | negativeDepth (depth : Int)
  | step (cause : StepError)
  deriving DecidableEq, Repr

/-- The wording of an error. -/
def DeriveError.message : DeriveError → String
  | negativeDepth depth => s!"depth must be >= 0, got {depth}"
  | step cause => cause.message

/-- The failure to produce a successor, at a position. -/
def StepError.ofProduce (s : Symbol Float) (position : Nat) : Rule.ProduceError → StepError
  | .arity cause => .arity cause
  | .eval cause => .noValue s position cause

namespace Grammar

variable {σ : Type} [Draws σ]

/-- What takes the place of a symbol by a selection. -/
def replacement (s : Symbol Float) (chosen : Selection) : Except Rule.ProduceError Word :=
  match chosen.rule? with
  | none => .ok [s]
  | some r => r.produce s

/-- **Replacing one symbol** at a position, between its neighbours. -/
def replace (gr : Grammar) (ctx : Neighbours) (position : Nat) (s : Symbol Float) (g : σ) :
    Except StepError (Word × σ) := do
  let (chosen, g) ← (select s (gr.rulesFor s.name) ctx g).mapError (.noValue s position)
  let out ← (replacement s chosen).mapError (.ofProduce s position)
  return (out, g)

/-- A step over the rest of a word, after a symbol named `left` and from a position on. -/
def stepFrom (gr : Grammar) (left : Option String) (position : Nat) :
    Word → σ → Except StepError (Word × σ)
  | [], g => .ok ([], g)
  | s :: rest, g => do
    let ctx : Neighbours := { left, right := rest.head?.map Symbol.name }
    let (out, g) ← gr.replace ctx position s g
    let (outs, g) ← gr.stepFrom (some s.name) (position + 1) rest g
    return (out ++ outs, g)

/-- **One step** of a derivation. -/
def step (gr : Grammar) (w : Word) (g : σ) : Except StepError (Word × σ) := gr.stepFrom none 0 w g

@[simp] theorem step_nil (gr : Grammar) (g : σ) : gr.step [] g = .ok ([], g) := rfl

/-- **Derivation.** As many steps as `depth` says. -/
def derive (gr : Grammar) (w : Word) : Nat → σ → Except StepError (Word × σ)
  | 0, g => .ok (w, g)
  | depth + 1, g => do
    let (w, g) ← gr.step w g
    gr.derive w depth g

@[simp] theorem derive_zero (gr : Grammar) (w : Word) (g : σ) : gr.derive w 0 g = .ok (w, g) := rfl

theorem derive_succ (gr : Grammar) (w : Word) (depth : Nat) (g : σ) :
    gr.derive w (depth + 1) g = gr.step w g >>= fun (w, g) => gr.derive w depth g := rfl

/-- A derivation from the start word, or from another word, to a depth that may be negative by
mistake. -/
def iterate (gr : Grammar) (start : Option Word) (depth : Int) (g : σ) :
    Except DeriveError (Word × σ) :=
  if depth < 0 then .error (.negativeDepth depth)
  else (gr.derive (start.getD gr.start) depth.toNat g).mapError .step

end Grammar

end Arbor
