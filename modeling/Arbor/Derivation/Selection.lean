import Arbor.Derivation.Roulette
import Arbor.Rule.Basic

/-!
# Choosing a rule

Of the rules for a symbol, those whose context does not fit are out. The rest compete by tiers, the
most specific context first (`ContextKind.all`). The first tier with an accepting rule decides:

* if a rule without weight accepts, the first such rule is chosen;
* else the accepting rules with weights are put on the roulette (`drawLot`), which makes no draw for
  a single one.

With no accepting rule in any tier the symbol is kept. Conditions are evaluated in just this order,
and only as far as needed, so a condition without a value is an error only where the choice reaches
it.
-/

namespace Arbor

/-! ### Lots -/

variable {σ : Type} [Draws σ]

/-- **Lot.** The place of the candidate drawn by weight, of one and others. One candidate alone is
drawn without a draw from the source. -/
def drawLot (first : Rule) (others : List Rule) (g : σ) : Nat × σ :=
  if others.isEmpty then (0, g)
  else
    let (u, g) := Draws.next g
    (Roulette.pick ((first :: others).map Rule.lot) u, g)

/-- There is no candidate to draw from. -/
structure NoCandidate where
  deriving DecidableEq, Repr

/-- The wording of the error. -/
def NoCandidate.message (_ : NoCandidate) : String := "weighted_choice() needs at least one rule"

/-- A lot from a list, which has to have a candidate. -/
def drawLotFrom (candidates : List Rule) (g : σ) : Except NoCandidate (Nat × σ) :=
  match candidates with
  | [] => .error {}
  | first :: others => .ok (drawLot first others g)

/-! ### Tiers -/

/-- The rules whose context fits and asks for as much as `kind` says. -/
def tier (rules : List Rule) (ctx : Neighbours) (kind : ContextKind) : List Rule :=
  rules.filter fun r => r.fits ctx && r.contextKind = kind

/-- The first rule without weight that accepts a symbol. -/
def firstFixed (s : Symbol Float) : List Rule → Except EvalError (Option Rule)
  | [] => .ok none
  | r :: rs =>
    if r.isStochastic then firstFixed s rs
    else do
      if ← r.accepts s then return some r else firstFixed s rs

/-- The rules with weights that accept a symbol. -/
def weightedCandidates (s : Symbol Float) : List Rule → Except EvalError (List Rule)
  | [] => .ok []
  | r :: rs =>
    if r.isStochastic then do
      if ← r.accepts s then return r :: (← weightedCandidates s rs) else weightedCandidates s rs
    else weightedCandidates s rs

/-- **Selection.** What becomes of a symbol. -/
inductive Selection
  /-- No rule accepts the symbol. -/
  | keep
  /-- A rule without weight. -/
  | fixed (r : Rule)
  /-- A rule with a weight, from the candidates of its tier. -/
  | drawn (r : Rule)
  deriving DecidableEq, Repr

/-- The rule of a selection. -/
def Selection.rule? : Selection → Option Rule
  | keep => none
  | fixed r | drawn r => some r

/-- The selection in one tier, or `keep` if none of its rules accepts. -/
def selectInTier (s : Symbol Float) (rules : List Rule) (g : σ) :
    Except EvalError (Selection × σ) := do
  if let some r ← firstFixed s rules then return (.fixed r, g)
  match ← weightedCandidates s rules with
  | [] => return (.keep, g)
  | first :: others =>
    let (i, g) := drawLot first others g
    return (.drawn ((first :: others).getD i first), g)

/-- The selection in the first of several tiers that has one. -/
def selectInTiers (s : Symbol Float) (rules : List Rule) (ctx : Neighbours) :
    List ContextKind → σ → Except EvalError (Selection × σ)
  | [], g => .ok (.keep, g)
  | kind :: kinds, g => do
    match ← selectInTier s (tier rules ctx kind) g with
    | (.keep, g) => selectInTiers s rules ctx kinds g
    | found => return found

/-- **Choosing a rule** for a symbol between its neighbours. -/
def select (s : Symbol Float) (rules : List Rule) (ctx : Neighbours) (g : σ) :
    Except EvalError (Selection × σ) :=
  selectInTiers s rules ctx ContextKind.all g

end Arbor
