import Arbor.Derivation.Step

/-!
# The journal of a derivation

A derivation can be followed step by step. Its journal notes every rule that came from the roulette,
with the symbol it was drawn for, and the length of the word after every step. It goes as far as the
derivation does: a step that fails has the picks up to the failure and no length.
-/

namespace Arbor

/-- **Entry** of a journal. -/
inductive Entry
  /-- A rule with a weight was chosen for a symbol. -/
  | pick (symbol : Symbol Float) (rule : Rule)
  /-- One step of several is done. -/
  | stepped (done depth length : Nat)
  deriving DecidableEq, Repr

/-- The wording of an entry. -/
def Entry.message : Entry → String
  | pick s r => s!"stochastic pick for {s.text}: {r.text}"
  | stepped done depth length => s!"step {done}/{depth}: {length} symbols"

namespace Grammar

variable {σ : Type} [Draws σ]

/-- The picks of a step over the rest of a word, up to the first failure. -/
def picksFrom (gr : Grammar) (left : Option String) (position : Nat) : Word → σ → List Entry
  | [], _ => []
  | s :: rest, g =>
    let ctx : Neighbours := { left, right := rest.head?.map Symbol.name }
    let here := match select s (gr.rulesFor s.name) ctx g with
      | .ok (.drawn r, _) => [.pick s r]
      | _ => []
    match gr.replace ctx position s g with
    | .ok (_, g) => here ++ gr.picksFrom (some s.name) (position + 1) rest g
    | .error _ => here

/-- The journal of the last `left` steps out of `depth`. -/
def journalFrom (gr : Grammar) (depth : Nat) (w : Word) : Nat → σ → List Entry
  | 0, _ => []
  | left + 1, g =>
    gr.picksFrom none 0 w g ++
      match gr.step w g with
      | .ok (w, g) => .stepped (depth - left) depth w.length :: gr.journalFrom depth w left g
      | .error _ => []

/-- **The journal** of a derivation; one of negative depth has none. -/
def journal (gr : Grammar) (start : Option Word) (depth : Int) (g : σ) : List Entry :=
  gr.journalFrom depth.toNat (start.getD gr.start) depth.toNat g

end Grammar

end Arbor
