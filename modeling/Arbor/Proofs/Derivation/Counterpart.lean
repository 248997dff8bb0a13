import Arbor.Proofs.Derivation.Selection
import Mathlib.Data.List.GetD

/-!
# Choices between counterparts

What the choice of a rule hears of each rule is little: how much it asks of the neighbours and
whether these are there, its weight, and what it says to the symbol. If every rule of a list has a
counterpart of which the same is heard, for another symbol between other neighbours, then the choice
between the counterparts goes the same way (`select_map`): it takes the counterpart of the rule that
was chosen, with the same draws, or it fails with the same error.

So nothing else plays a part in a choice. Two uses are made of this: a symbol may be exchanged for
another to which every rule says the same (`select_congr`), and rules, symbol and neighbours may be
renamed together.
-/

namespace Arbor

open Outcome

/-- **Counterpart.** Of the rule `r'` the same is heard, at the symbol `t` between the neighbours
`ctx'`, as of the rule `r` at `s` between `ctx`. -/
structure Rule.Counterpart (s t : Symbol Float) (ctx ctx' : Neighbours) (r r' : Rule) : Prop where
  accepts : r'.accepts t = r.accepts s
  weight : r'.weight = r.weight
  fits : r'.fits ctx' = r.fits ctx
  contextKind : r'.contextKind = r.contextKind

/-- The selection of the counterpart. -/
def Selection.map (f : Rule → Rule) : Selection → Selection
  | keep => keep
  | fixed r => fixed (f r)
  | drawn r => drawn (f r)

/-- The rule of a counterpart is the counterpart of the rule. -/
@[simp] theorem Selection.rule?_map (f : Rule → Rule) (chosen : Selection) :
    (chosen.map f).rule? = chosen.rule?.map f := by
  cases chosen <;> rfl

/-- With every rule for its own counterpart a selection is itself. -/
theorem Selection.map_id : Selection.map id = id := by
  funext chosen
  cases chosen <;> rfl

variable {σ : Type} [Draws σ] {s t : Symbol Float} {ctx ctx' : Neighbours} {f : Rule → Rule}
  {rules : List Rule}

/-- Counterparts have weights both or neither. -/
theorem Rule.Counterpart.isStochastic {r r' : Rule} (h : r.Counterpart s t ctx ctx' r') :
    r'.isStochastic = r.isStochastic := by
  rw [Rule.isStochastic, Rule.isStochastic, h.weight]

/-- Counterparts weigh the same in a lot. -/
theorem Rule.Counterpart.lot {r r' : Rule} (h : r.Counterpart s t ctx ctx' r') :
    r'.lot = r.lot := by
  rw [Rule.lot, Rule.lot, h.weight]

/-! ### The parts of a choice -/

/-- **Tiers** of counterparts are the counterparts of tiers. -/
theorem tier_map (h : ∀ r ∈ rules, r.Counterpart s t ctx ctx' (f r)) (kind : ContextKind) :
    tier (rules.map f) ctx' kind = (tier rules ctx kind).map f := by
  rw [tier, tier, List.filter_map]
  refine congrArg (List.map f) (List.filter_congr fun r hr => ?_)
  rw [Function.comp_apply, (h r hr).fits, (h r hr).contextKind]

/-- The search for a rule without weight finds the counterpart, or fails alike. -/
theorem firstFixed_map (h : ∀ r ∈ rules, r.Counterpart s t ctx ctx' (f r)) :
    firstFixed t (rules.map f) = (firstFixed s rules).map (Option.map f) := by
  induction rules with
  | nil => rfl
  | cons r rules ih =>
    obtain ⟨hr, hrules⟩ := List.forall_mem_cons.1 h
    rw [List.map_cons, firstFixed, firstFixed, hr.isStochastic, hr.accepts, ih hrules]
    -- a rule with a weight is passed over, and any other one is asked
    split
    · rfl
    · cases r.accepts s with
      | error e => rfl
      | ok accepted => cases accepted <;> rfl

/-- The lot of counterparts has the counterparts of the lot. -/
theorem weightedCandidates_map (h : ∀ r ∈ rules, r.Counterpart s t ctx ctx' (f r)) :
    weightedCandidates t (rules.map f) = (weightedCandidates s rules).map (List.map f) := by
  induction rules with
  | nil => rfl
  | cons r rules ih =>
    obtain ⟨hr, hrules⟩ := List.forall_mem_cons.1 h
    rw [List.map_cons, weightedCandidates, weightedCandidates, hr.isStochastic, hr.accepts,
      ih hrules]
    -- only the rules with weights are asked, and of these the accepting ones are kept
    split
    · cases r.accepts s with
      | error e => rfl
      | ok accepted =>
        cases accepted with
        | false => rfl
        | true => cases weightedCandidates s rules <;> rfl
    · rfl

/-- The lot between counterparts falls on the same place. -/
theorem drawLot_map {first : Rule} {others : List Rule}
    (h : ∀ r ∈ first :: others, (f r).lot = r.lot) (g : σ) :
    drawLot (f first) (others.map f) g = drawLot first others g := by
  have hlots : ((f first :: others.map f).map Rule.lot) = (first :: others).map Rule.lot := by
    -- the counterparts are listed in the order of their rules
    rw [← List.map_cons, List.map_map]
    exact List.map_congr_left h
  rw [drawLot, drawLot, List.isEmpty_map, hlots]

/-- The accepting rules with weights are rules of the list. -/
theorem mem_of_weightedCandidates {candidates : List Rule} {r : Rule}
    (h : weightedCandidates s rules = .ok candidates) (hr : r ∈ candidates) : r ∈ rules := by
  rcases weightedCandidates_cases s rules with ⟨hlot, -⟩ | ⟨_, e, herr, -⟩
  · -- the list is the lot, and the lot is a part of the rules
    obtain rfl := Except.ok.inj (hlot.symm.trans h)
    exact (mem_lotOf.1 hr).1
  · cases herr.symm.trans h

/-- The choice in one tier takes the counterpart, with the same draw. -/
theorem selectInTier_map (h : ∀ r ∈ rules, r.Counterpart s t ctx ctx' (f r)) (g : σ) :
    selectInTier t (rules.map f) g =
      (selectInTier s rules g).map (Prod.map (Selection.map f) id) := by
  rw [selectInTier, selectInTier, firstFixed_map h, weightedCandidates_map h]
  -- conditions come first on both sides, and they say the same
  cases firstFixed s rules with
  | error e => rfl
  | ok found =>
    cases found with
    | some r => rfl
    | none =>
      cases hcands : weightedCandidates s rules with
      | error e => rfl
      | ok candidates =>
        cases candidates with
        | nil => rfl
        | cons first others =>
          -- the lot falls on one place in both rows, and there the counterpart stands
          have hlots : ∀ r ∈ first :: others, (f r).lot = r.lot := fun r hr =>
            (h r (mem_of_weightedCandidates hcands hr)).lot
          have hpicked : ∀ i, ((first :: others).map f).getD i (f first) =
              f ((first :: others).getD i first) := fun i => List.getD_map _ _ f
          simp only [Except.map, Option.map, List.map_cons, ok_bind, drawLot_map hlots] at hpicked ⊢
          rw [hpicked]
          rfl

/-! ### The whole choice -/

/-- **A choice between counterparts** goes the same way, with the same draws. -/
theorem select_map (h : ∀ r ∈ rules, r.Counterpart s t ctx ctx' (f r)) (g : σ) :
    select t (rules.map f) ctx' g =
      (select s rules ctx g).map (Prod.map (Selection.map f) id) := by
  unfold select
  -- the source is general: each tier starts from the one that the tier before it has left
  induction ContextKind.all generalizing g with
  | nil => rfl
  | cons kind kinds ih =>
    have htier : ∀ r ∈ tier rules ctx kind, r.Counterpart s t ctx ctx' (f r) := fun r hr =>
      h r (List.mem_filter.1 hr).1
    rw [selectInTiers, selectInTiers, tier_map h, selectInTier_map htier]
    cases selectInTier s (tier rules ctx kind) g with
    | error e => rfl
    | ok found =>
      obtain ⟨chosen, g'⟩ := found
      cases chosen with
      -- no rule of this tier accepts, so the next one is asked, from the same source
      | keep => exact ih g'
      | fixed r | drawn r => rfl

/-- **Exchange of symbols.** Where every rule says the same to two symbols, the same is chosen for
them. -/
theorem select_congr (h : ∀ r ∈ rules, r.accepts t = r.accepts s) (ctx : Neighbours) (g : σ) :
    select t rules ctx g = select s rules ctx g := by
  -- every rule is its own counterpart at the other symbol
  have hmap : select t (rules.map id) ctx g =
      (select s rules ctx g).map (Prod.map (Selection.map id) id) :=
    select_map (fun r hr => ⟨h r hr, rfl, rfl, rfl⟩) g
  rw [List.map_id, Selection.map_id, Prod.map_id, Except.map_id] at hmap
  exact hmap

end Arbor
