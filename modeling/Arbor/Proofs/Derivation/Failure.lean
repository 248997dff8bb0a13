import Arbor.Proofs.Derivation.ParallelStep

/-!
# How a step can fail

A rule that names another number of parameters than a symbol has does not apply to it, and that is no
error; nor is it one when no rule applies. This module says that a step fails in one way only: at some
position an expression is needed that has no value (`Grammar.step_failure`).

* `Grammar.stepChecked`: the step once more, with every check that could refuse. Names are bound to
  parameters by `Rule.bind`, in conditions as in successors, and the lot is `drawLotFrom`. It comes
  to the same as `Grammar.step` (`Grammar.stepChecked_eq`), so neither of the two ever refuses.
* `Needs`: the expressions that a step reads at a symbol. They are the conditions that the choice
  comes to and the arguments of the rule that it chooses.
* `Rule.env_eq_some_iff`: the names in them stand for the parameters of the symbol by position. Where
  a name stands twice, the later place counts.
-/

namespace Arbor

open Outcome
open Draws (after unread)

/-! ### Parameters under their names -/

/-- A lookup from the end finds the last binding of a name. -/
theorem lookup_reverse_eq_some_iff {β : Type} {name : String} {b : β}
    {bindings : List (String × β)} :
    bindings.reverse.lookup name = some b ↔
      ∃ i : Nat, bindings[i]? = some (name, b) ∧
        ∀ j, i < j → (bindings[j]?).map Prod.fst ≠ some name := by
  -- by induction from the first binding, which is the last to be looked at
  induction bindings with
  | nil => simp
  | cons binding bindings ih =>
    obtain ⟨key, a⟩ := binding
    -- the name has no later binding just if no later place has it
    have hnone : bindings.reverse.lookup name = none ↔
        ∀ j : Nat, (bindings[j]?).map Prod.fst ≠ some name := by
      rw [List.lookup_eq_none_iff]
      constructor
      · intro h j hj
        obtain ⟨p, hp, rfl⟩ := Option.map_eq_some_iff.1 hj
        simpa using h p (List.mem_reverse.2 (List.mem_of_getElem? hp))
      · intro h p hp
        obtain ⟨j, hj⟩ := List.mem_iff_getElem?.1 (List.mem_reverse.1 hp)
        exact bne_iff_ne.2 fun hname => h j (by rw [hj, hname]; rfl)
    rw [List.reverse_cons, List.lookup_append, Option.or_eq_some_iff, ih, hnone]
    constructor
    · -- a later binding comes first in the lookup; the first binding is reached if there is none
      rintro (⟨i, hi, hlast⟩ | ⟨hlater, hfirst⟩)
      · refine ⟨i + 1, hi, fun j hj => ?_⟩
        obtain ⟨j, rfl⟩ : ∃ m, j = m + 1 := ⟨j - 1, by omega⟩
        exact hlast j (by omega)
      · refine ⟨0, ?_, fun j hj => ?_⟩
        · obtain rfl : name = key := by
            by_contra hne
            simp [List.lookup_cons, beq_false_of_ne hne] at hfirst
          simpa using hfirst
        · obtain ⟨j, rfl⟩ : ∃ m, j = m + 1 := ⟨j - 1, by omega⟩
          exact hlater j
    · rintro ⟨i, hi, hlast⟩
      cases i with
      -- the last place of the name is the first binding itself
      | zero =>
        obtain ⟨rfl, rfl⟩ : key = name ∧ a = b := by simpa using hi
        exact .inr ⟨fun j => hlast (j + 1) (by omega), by simp⟩
      -- or it is among the later ones
      | succ i => exact .inl ⟨i, hi, fun j hj => hlast (j + 1) (by omega)⟩

namespace Rule

/-- **By position.** A name stands for the parameter at its place, and at the last of its places if
there are several. -/
theorem env_eq_some_iff {r : Rule} {s : Symbol Float} (h : r.params.length = s.arity)
    {name : String} {v : Float} :
    r.env s name = some v ↔ ∃ i : Nat, r.params[i]? = some name ∧ s.params[i]? = some v ∧
      ∀ j, i < j → r.params[j]? ≠ some name := by
  -- the names keep their places among the bindings, as there are as many parameters
  have hnames : ∀ i : Nat, ((r.params.zip s.params)[i]?).map Prod.fst = r.params[i]? := fun i => by
    rw [← List.getElem?_map, List.map_fst_zip (Nat.le_of_eq h)]
  rw [env, Env.ofList, lookup_reverse_eq_some_iff]
  simp only [bindings, List.getElem?_zip_eq_some, hnames, and_assoc]

/-- A successor cannot be put together just if one of its arguments has no value. -/
theorem exists_expand_eq_error_iff {r : Rule} {s : Symbol Float} :
    (∃ e, r.expand s = .error e) ↔
      ∃ t ∈ r.successor, ∃ a ∈ t.args, ∃ e, a.eval (r.env s) = .error e := by
  -- a template fails with one of its arguments, and with nothing else
  have htemplate : ∀ t : Template, (∃ e, t.instantiate (r.env s) = .error e) ↔
      ∃ a ∈ t.args, ∃ e, a.eval (r.env s) = .error e := fun t => by
    rw [← exists_mapM_eq_error_iff]
    simp [Template.instantiate, bind_eq_error_iff]
  simp only [expand, exists_mapM_eq_error_iff, htemplate]

/-- Acceptance with the names bound by `bind`, which refuses a wrong number of parameters. -/
def acceptsBound (r : Rule) (s : Symbol Float) : Except ProduceError Bool :=
  if r.matchesArity s then
    match r.condition with
    | none => .ok true
    | some c => do
      let bindings ← (r.bind s).mapError .arity
      (c.isTrue (Env.ofList bindings)).mapError .eval
  else .ok false

/-- The names are bound only after the number of parameters has been found to be right. -/
theorem acceptsBound_eq (r : Rule) (s : Symbol Float) :
    r.acceptsBound s = (r.accepts s).mapError .eval := by
  unfold acceptsBound accepts
  cases h : r.matchesArity s with
  | false => rfl
  | true =>
    cases hc : r.condition with
    -- a rule without condition binds nothing
    | none => simp [holds, hc]
    -- the arity has been compared already, so binding the names succeeds
    | some c => simp [holds, hc, bind, h, env]

end Rule

/-! ### A step with all checks -/

section Checked

variable {σ : Type} [Draws σ] (s : Symbol Float) (ctx : Neighbours)

/-- `firstFixed` with bound names. -/
def firstFixedBound : List Rule → Except Rule.ProduceError (Option Rule)
  | [] => .ok none
  | r :: rs =>
    if r.isStochastic then firstFixedBound rs
    else do
      if ← r.acceptsBound s then return some r else firstFixedBound rs

/-- `weightedCandidates` with bound names. -/
def weightedBound : List Rule → Except Rule.ProduceError (List Rule)
  | [] => .ok []
  | r :: rs =>
    if r.isStochastic then do
      if ← r.acceptsBound s then return r :: (← weightedBound rs) else weightedBound rs
    else weightedBound rs

/-- The choice in one tier, with the refusals of `bind` and of the lot handed on. -/
def chooseInTier (rules : List Rule) (g : σ) :
    Except (Rule.ProduceError ⊕ NoCandidate) (Selection × σ) := do
  if let some r ← (firstFixedBound s rules).mapError .inl then return (.fixed r, g)
  let candidates ← (weightedBound s rules).mapError .inl
  if candidates.isEmpty then return (.keep, g)
  let (i, g) ← (drawLotFrom candidates g).mapError .inr
  return (candidates[i]?.elim .keep .drawn, g)

/-- The choice in several tiers, with the same refusals. -/
def chooseInTiers (rules : List Rule) :
    List ContextKind → σ → Except (Rule.ProduceError ⊕ NoCandidate) (Selection × σ)
  | [], g => .ok (.keep, g)
  | kind :: kinds, g => do
    match ← chooseInTier s (tier rules ctx kind) g with
    | (.keep, g) => chooseInTiers rules kinds g
    | found => return found

/-- With bound names the search finds the same rule. -/
theorem firstFixedBound_eq (rs : List Rule) :
    firstFixedBound s rs = (firstFixed s rs).mapError .eval := by
  induction rs with
  | nil => rfl
  | cons r rs ih =>
    rw [firstFixedBound, firstFixed, r.acceptsBound_eq, ih]
    split
    · rfl
    · -- whatever the rule says, both searches go on or stop together
      cases r.accepts s with
      | error e => rfl
      | ok accepted => cases accepted <;> rfl

/-- With bound names the lot has the same rules. -/
theorem weightedBound_eq (rs : List Rule) :
    weightedBound s rs = (weightedCandidates s rs).mapError .eval := by
  induction rs with
  | nil => rfl
  | cons r rs ih =>
    rw [weightedBound, weightedCandidates, r.acceptsBound_eq, ih]
    split
    · cases r.accepts s with
      | error e => rfl
      | ok accepted =>
        cases weightedCandidates s rs <;> cases accepted <;> rfl
    · rfl

/-- A lot is drawn only where there is a candidate, and it names one of them. -/
theorem chooseInTier_eq (rs : List Rule) (g : σ) :
    chooseInTier s rs g = (selectInTier s rs g).mapError fun e => .inl (.eval e) := by
  rw [chooseInTier, selectInTier, firstFixedBound_eq, weightedBound_eq]
  cases firstFixed s rs with
  | error e => rfl
  | ok found =>
    cases found with
    | some r => rfl
    | none =>
      cases weightedCandidates s rs with
      | error e => rfl
      | ok candidates =>
        cases candidates with
        | nil => rfl
        | cons first others =>
          -- the draw names a place in the list, so there is a rule to be taken
          have hlt := drawLot_lt first others g
          simp [drawLotFrom, List.getElem?_eq_getElem hlt]

/-- The choice in several tiers comes to the same with the checks, since that in each tier does. -/
theorem chooseInTiers_eq (rules : List Rule) (kinds : List ContextKind) (g : σ) :
    chooseInTiers s ctx rules kinds g =
      (selectInTiers s rules ctx kinds g).mapError fun e => .inl (.eval e) := by
  induction kinds generalizing g with
  | nil => rfl
  | cons kind kinds ih =>
    rw [chooseInTiers, selectInTiers, chooseInTier_eq]
    cases selectInTier s (tier rules ctx kind) g with
    | error e => rfl
    | ok found =>
      obtain ⟨chosen, g⟩ := found
      cases chosen with
      | keep => exact ih g
      | fixed r => rfl
      | drawn r => rfl

end Checked

namespace Grammar

variable {σ : Type} [Draws σ] (gr : Grammar)

/-- Replacing one symbol, with all refusals handed on. -/
def replaceChecked (ctx : Neighbours) (position : Nat) (s : Symbol Float) (g : σ) :
    Except (StepError ⊕ NoCandidate) (Word × σ) := do
  let (chosen, g) ← (chooseInTiers s ctx (gr.rulesFor s.name) ContextKind.all g).mapError
    (Sum.map (.ofProduce s position) id)
  let out ← (replacement s chosen).mapError fun e => .inl (.ofProduce s position e)
  return (out, g)

/-- A step over the rest of a word, with all refusals handed on. -/
def stepFromChecked (left : Option String) (position : Nat) :
    Word → σ → Except (StepError ⊕ NoCandidate) (Word × σ)
  | [], g => .ok ([], g)
  | s :: rest, g => do
    let ctx : Neighbours := { left, right := rest.head?.map Symbol.name }
    let (out, g) ← gr.replaceChecked ctx position s g
    let (outs, g) ← stepFromChecked (some s.name) (position + 1) rest g
    return (out ++ outs, g)

/-- **One step with all checks.** The names are bound by `bind`, and the lot is `drawLotFrom`; each of
them may refuse, and a refusal ends the step. -/
def stepChecked (w : Word) (g : σ) : Except (StepError ⊕ NoCandidate) (Word × σ) :=
  gr.stepFromChecked none 0 w g

/-- A symbol is replaced with the checks as it is without them. -/
theorem replaceChecked_eq (ctx : Neighbours) (position : Nat) (s : Symbol Float) (g : σ) :
    gr.replaceChecked ctx position s g = (gr.replace ctx position s g).mapError .inl := by
  rw [replaceChecked, replace, chooseInTiers_eq, select]
  cases selectInTiers s (gr.rulesFor s.name) ctx ContextKind.all g with
  | error e => rfl
  | ok found =>
    obtain ⟨chosen, g⟩ := found
    -- the choice has succeeded, and the successor is put together in the same way
    cases hout : replacement s chosen <;> simp [hout]

/-- The rest of a word is replaced with the checks as it is without them. -/
theorem stepFromChecked_eq (left : Option String) (position : Nat) (w : Word) (g : σ) :
    gr.stepFromChecked left position w g = (gr.stepFrom left position w g).mapError .inl := by
  induction w generalizing left position g with
  | nil => rfl
  | cons s w ih =>
    rw [stepFromChecked, stepFrom, replaceChecked_eq]
    cases gr.replace { left, right := w.head?.map Symbol.name } position s g with
    | error e => rfl
    | ok found =>
      obtain ⟨out, g⟩ := found
      simp only [mapError_ok, ok_bind, ih]
      cases gr.stepFrom (some s.name) (position + 1) w g <;> rfl

/-- The checks refuse nothing that the step comes to. -/
theorem stepChecked_eq (w : Word) (g : σ) :
    gr.stepChecked w g = (gr.step w g).mapError .inl := gr.stepFromChecked_eq none 0 w g

end Grammar

/-! ### The expressions that a step needs -/

section Needs

variable {σ : Type} [Draws σ] {rules : List Rule} {ctx : Neighbours} {s : Symbol Float} {g : σ}

/-- **Need.** At a symbol the expression `a` of the rule `r` is needed: it is the condition of a rule
that the choice comes to, or an argument of the rule that is chosen. -/
inductive Needs (rules : List Rule) (ctx : Neighbours) (s : Symbol Float) (g : σ) (r : Rule)
    (a : Expr) : Prop
  | condition (inquired : Inquired s rules ctx r) (arity : r.params.length = s.arity)
      (asked : r.condition = some a)
  | argument (chosen : Selection) (g' : σ) (selected : select s rules ctx g = .ok (chosen, g'))
      (rule : chosen.rule? = some r) (t : Template) (template : t ∈ r.successor) (arg : a ∈ t.args)

/-- A rule with an expression that is needed names as many parameters as the symbol has. -/
theorem Needs.arity {r : Rule} {a : Expr} (h : Needs rules ctx s g r a) :
    r.params.length = s.arity := by
  cases h with
  | condition inquired arity asked => exact arity
  | argument chosen g' selected rule t template arg =>
    exact (mem_of_select s rules ctx selected rule).2.1

/-- Where the choice fails, the condition of a rule that it comes to has no value. -/
theorem needs_of_select_eq_error {e : EvalError} (h : select s rules ctx g = .error e) :
    ∃ r a, Needs rules ctx s g r a ∧ a.eval (r.env s) = .error e := by
  obtain ⟨r, hinq, harity, c, hc, hfails⟩ := (select_eq_error_iff s rules ctx g e).1 h
  exact ⟨r, c, .condition hinq harity hc, hfails⟩

/-- Where the choice succeeds, what is needed and has no value is an argument of the chosen rule. -/
theorem needs_iff_of_select_eq_ok {chosen : Selection} {g' : σ}
    (h : select s rules ctx g = .ok (chosen, g')) :
    (∃ r a e, Needs rules ctx s g r a ∧ a.eval (r.env s) = .error e) ↔
      ∃ r, chosen.rule? = some r ∧ ∃ e, r.expand s = .error e := by
  simp only [Rule.exists_expand_eq_error_iff]
  constructor
  · rintro ⟨r, a, e, hneeds, he⟩
    cases hneeds with
    | condition inquired arity asked =>
      -- the choice would have failed at this rule
      have herr := (select_eq_error_iff s rules ctx g e).2 ⟨r, inquired, arity, a, asked, he⟩
      exact absurd (h.symm.trans herr) (by simp)
    | argument chosen' g'' selected rule t template arg =>
      obtain ⟨rfl, rfl⟩ := Prod.mk.inj (Except.ok.inj (h.symm.trans selected))
      exact ⟨r, rule, t, template, a, arg, e, he⟩
  · rintro ⟨r, hr, t, ht, a, ha, e, he⟩
    exact ⟨r, a, e, .argument chosen g' h hr t ht ha, he⟩

/-- A position has no piece just if an expression that is needed there has no value. -/
theorem exists_piece_eq_error_iff :
    (∃ e, piece rules ctx s (unread g) = .error e) ↔
      ∃ r a e, Needs rules ctx s g r a ∧ a.eval (r.env s) = .error e := by
  -- the source of the position does not matter but for the draws that are still unread
  have hsel : select s rules ctx g =
      (select s rules ctx (⟨unread g, 0⟩ : Counted Unread)).map (Draws.advance g) :=
    select_eq s rules ctx g
  unfold piece
  cases hc : select s rules ctx (⟨unread g, 0⟩ : Counted Unread) with
  | error e =>
    rw [hc] at hsel
    -- the choice fails, and it does so at a condition
    obtain ⟨r, a, hneeds, he⟩ := needs_of_select_eq_error hsel
    exact iff_of_true ⟨e, rfl⟩ ⟨r, a, e, hneeds, he⟩
  | ok found =>
    obtain ⟨chosen, used⟩ := found
    rw [hc] at hsel
    -- the choice succeeds, and only the successor can still fail
    rw [needs_iff_of_select_eq_ok hsel, ok_bind]
    cases hr : chosen.rule? with
    -- a symbol that is kept needs nothing
    | none => simp [hr]
    | some r => simp [hr, bind_eq_error_iff]

end Needs

/-! ### The failure of a step -/

namespace Grammar

variable {σ : Type} [Draws σ]

/-- A position whose symbol needs an expression that has no value, in front of which all positions
have pieces. -/
def LacksValueAfter (gr : Grammar) (w : Word) (g : σ) (ps : List (Word × Nat)) : Prop :=
  gr.Pieces w g ps ∧ ∃ s, w[ps.length]? = some s ∧
    ∃ r a e, Needs (gr.rulesFor s.name) (w.neighboursAt ps.length) s (after g (consumed ps)) r a ∧
      a.eval (r.env s) = .error e

/-- **The failure of a step.** A step with all its checks is the step: no rule is chosen for a symbol
with another number of parameters, none is asked for its condition there, and no lot is drawn from
nobody. A step fails only because an expression has no value, and it fails just if at some position
one is needed that has none: a condition that the choice comes to, or an argument of the rule that is
chosen. The names in it stand for the parameters of the symbol by position. -/
theorem step_failure (gr : Grammar) (w : Word) (g : σ) :
    gr.stepChecked w g = (gr.step w g).mapError .inl ∧
    (∀ err, gr.step w g = .error err → ∃ s i e, err = .noValue s i e) ∧
    ((∃ err, gr.step w g = .error err) ↔ ∃ ps, gr.LacksValueAfter w g ps) ∧
    ∀ (rules : List Rule) (ctx : Neighbours) (s : Symbol Float) (g' : σ) (r : Rule) (a : Expr),
      Needs rules ctx s g' r a → r.params.length = s.arity ∧
        ∀ name v, r.env s name = some v ↔
          ∃ i : Nat, r.params[i]? = some name ∧ s.params[i]? = some v ∧
            ∀ j, i < j → r.params[j]? ≠ some name := by
  refine ⟨gr.stepChecked_eq w g, fun err h => ?_, ?_, fun rules ctx s g' r a h => ?_⟩
  · -- the only error that a step can have is that of an expression
    obtain ⟨ps, s, e, -, rfl⟩ := step_eq_error_iff.1 h
    exact ⟨s, ps.length, e, rfl⟩
  · constructor
    · -- the step fails at the first position without a piece
      rintro ⟨err, h⟩
      obtain ⟨ps, s, e, ⟨hps, hs, herr⟩, -⟩ := step_eq_error_iff.1 h
      exact ⟨ps, hps, s, hs, exists_piece_eq_error_iff.1 ⟨e, herr⟩⟩
    · rintro ⟨ps, hps, s, hs, hlacks⟩
      obtain ⟨e, herr⟩ := exists_piece_eq_error_iff.2 hlacks
      exact ⟨_, step_eq_error_iff.2 ⟨ps, s, e, ⟨hps, hs, herr⟩, rfl⟩⟩
  · -- a rule whose expressions are needed has the arity of the symbol, and so its names are bound
    exact ⟨h.arity, fun name v => Rule.env_eq_some_iff h.arity⟩

/-- A rule with a name too many is passed over at a symbol without a parameter. At a symbol with the
parameter zero it is drawn, and its argument divides by that parameter. -/
theorem step_failure_quotient :
    let bare : Symbol Float := ⟨"A", [], false⟩
    let zero : Symbol Float := ⟨"A", [0.0], false⟩
    let quotient : Expr := .bin .div (.num 1.0) (.var "x")
    let inverse : Rule :=
      { predecessor := "A", params := ["x"], weight := some 1.0,
        successor := [⟨"A", [quotient], false⟩] }
    let gr : Grammar := { start := [bare, zero], groups := [("A", [inverse])] }
    let g : Replay := ⟨#[], 0⟩
    gr.stepChecked [bare] g = .ok ([bare], g) ∧
      (∃ s i e, gr.step [bare, zero] g = .error (.noValue s i e)) ∧
      (∃ ps, gr.LacksValueAfter [bare, zero] g ps) ∧
      inverse.env zero "x" = some 0.0 := by
  intro bare zero quotient inverse gr g
  have hpass : gr.step [bare] g = .ok ([bare], g) := by decide +kernel
  -- the tip with a parameter is the second symbol, and its draw falls on the only rule
  have hfail : gr.step [bare, zero] g = .error (.noValue zero 1 (.divisionByZero 1.0)) := by
    decide +kernel
  have hneeds : Needs [inverse] { left := some "A" } zero g inverse quotient := by
    refine .argument (.drawn inverse) g (by decide +kernel) rfl ⟨"A", [quotient], false⟩ ?_ ?_
    · exact List.mem_singleton_self _
    · exact List.mem_singleton_self _
  refine ⟨?_, ?_, (step_failure gr [bare, zero] g).2.2.1.1 ⟨_, hfail⟩, ?_⟩
  · rw [(step_failure gr [bare] g).1, hpass]
    rfl
  · obtain ⟨s, i, e, h⟩ := (step_failure gr [bare, zero] g).2.1 _ hfail
    exact ⟨s, i, e, hfail.trans (congrArg _ h)⟩
  · -- the name stands at the first place, and there is no other
    refine (((step_failure gr [bare, zero] g).2.2.2 _ _ _ _ _ _ hneeds).2 "x" 0.0).2
      ⟨0, rfl, rfl, fun j hj => ?_⟩
    rw [List.getElem?_eq_none_iff.2 (show ["x"].length ≤ j from hj)]
    simp

end Grammar

end Arbor
