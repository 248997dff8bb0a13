import Arbor.Proofs.Derivation.Selection
import Mathlib.Data.List.Basic

/-!
# The order of rules

The rules of a predecessor stand in an order, and the choice between them goes by it. But rules
compete only with rules that ask for as much of the neighbours, and among these the ones without
weight are tried before the others are put to the lot. So only the order within a class matters
(`rulesOfClass`): rules of different classes may change places, and the choice stays what it was
(`select_of_sameOrder`). It has the same rule or none, leaves the same source, and where a condition
has no value it fails for the same one: conditions are evaluated class by class, not in the order of
the list.

Within a tier the search for a rule without weight passes over the others (`firstFixed_filter`), and
the lot passes over those without weight (`weightedCandidates_filter`). A tier is therefore used up
by two of its sublists, each of them a class without the rules whose neighbours are not there
(`filter_tier`).
-/

namespace Arbor

variable {σ : Type} [Draws σ] {rules rules' rs rs' : List Rule}

/-- **Class.** The rules of a list that ask for as much of the neighbours and either all have
weights or all have none, in their order. -/
def rulesOfClass (rules : List Rule) (kind : ContextKind) (weighted : Bool) : List Rule :=
  rules.filter fun r => r.contextKind = kind && r.isStochastic = weighted

/-- **Same order.** Two lists have the same rules in each class, and in the same order there. -/
def SameOrder (rules rules' : List Rule) : Prop :=
  ∀ kind weighted, rulesOfClass rules kind weighted = rulesOfClass rules' kind weighted

/-- Lists in the same order are permutations of each other, since every rule has a class. -/
theorem SameOrder.perm (h : SameOrder rules rules') : rules.Perm rules' := by
  -- counted by equality: the comparison of rules is not reflexive where that of numbers is not
  let _ : BEq Rule := instBEqOfDecidableEq
  refine List.perm_iff_count.2 fun r => ?_
  have hclass : ∀ l : List Rule,
      (rulesOfClass l r.contextKind r.isStochastic).count r = l.count r := fun l =>
    List.count_filter (by simp)
  rw [← hclass rules, ← hclass rules', h]

/-! ### The two parts of a tier -/

/-- The search for a rule without weight passes over the rules with weights. -/
theorem firstFixed_filter (s : Symbol Float) (rs : List Rule) :
    firstFixed s (rs.filter (·.isStochastic = false)) = firstFixed s rs := by
  induction rs with
  | nil => rfl
  | cons r rs ih =>
    cases hr : r.isStochastic with
    -- the rule stays in the list, and the search asks it in both
    | false => simp only [List.filter_cons, hr, firstFixed, decide_true, if_true, ih]
    -- the rule is left out, and the search would have passed over it
    | true => simpa [List.filter_cons, hr, firstFixed] using ih

/-- The lot passes over the rules without weight. -/
theorem weightedCandidates_filter (s : Symbol Float) (rs : List Rule) :
    weightedCandidates s (rs.filter (·.isStochastic = true)) = weightedCandidates s rs := by
  induction rs with
  | nil => rfl
  | cons r rs ih =>
    cases hr : r.isStochastic with
    | true => simp only [List.filter_cons, hr, weightedCandidates, decide_true, if_true, ih]
    | false => simpa [List.filter_cons, hr, weightedCandidates] using ih

/-- A choice in one tier goes by the order of its rules without weight and by that of the others. -/
theorem selectInTier_of_filter
    (h : ∀ weighted, rs.filter (·.isStochastic = weighted) = rs'.filter (·.isStochastic = weighted))
    (s : Symbol Float) (g : σ) : selectInTier s rs g = selectInTier s rs' g := by
  -- both searches of a tier look at one of its parts only
  have hfixed : firstFixed s rs = firstFixed s rs' := by
    rw [← firstFixed_filter s rs, h, firstFixed_filter]
  have hweighted : weightedCandidates s rs = weightedCandidates s rs' := by
    rw [← weightedCandidates_filter s rs, h, weightedCandidates_filter]
  rw [selectInTier, selectInTier, hfixed, hweighted]

/-- Each part of a tier is a class without the rules whose neighbours are not there. -/
theorem filter_tier (rules : List Rule) (ctx : Neighbours) (kind : ContextKind) (weighted : Bool) :
    (tier rules ctx kind).filter (·.isStochastic = weighted) =
      (rulesOfClass rules kind weighted).filter (·.fits ctx) := by
  rw [tier, rulesOfClass, List.filter_filter, List.filter_filter]
  refine List.filter_congr fun r _ => ?_
  -- the two conditions of a class and that of the tier are asked in another order
  rw [Bool.and_left_comm, Bool.and_comm (decide (r.isStochastic = weighted))]

/-! ### The choice -/

/-- **Only the order within a class matters.** From two lists of rules in the same order, class by
class, the same is chosen for every symbol between any neighbours: the same rule or none, with the
same draws, or there is the same error. -/
theorem select_of_sameOrder (h : SameOrder rules rules') (s : Symbol Float) (ctx : Neighbours)
    (g : σ) : select s rules ctx g = select s rules' ctx g := by
  -- each tier is a part of each class, so in every tier the choice is the same
  have htier : ∀ kind g, selectInTier s (tier rules ctx kind) g =
      selectInTier s (tier rules' ctx kind) (g : σ) := fun kind g =>
    selectInTier_of_filter (fun weighted => by rw [filter_tier, filter_tier, h]) s g
  unfold select
  induction ContextKind.all generalizing g with
  | nil => rfl
  | cons kind kinds ih => simp only [selectInTiers, htier, ih]

/-- Four rules in two orders, where the ones with weights and the ones without change places. Away
from `B` both orders draw once and choose the same; next to it, both fail for the one condition that
has no value, though it stands last in the one and first in the other. -/
theorem select_of_sameOrder_exchanged :
    let s : Symbol Float := ⟨"A", [0.0], false⟩
    let positive : Rule :=
      { predecessor := "A", params := ["x"], condition := some (.bin .gt (.var "x") (.num 0.0)) }
    let near : Rule :=
      { predecessor := "A", params := ["x"], left := some "B"
        condition := some (.bin .gt (.bin .div (.num 1.0) (.var "x")) (.num 0.0)) }
    let light : Rule := { predecessor := "A", params := ["x"], weight := some 1.0 }
    let heavy : Rule := { predecessor := "A", params := ["x"], weight := some 3.0 }
    let c : Counted Replay := { source := ⟨#[0.5], 0⟩ }
    SameOrder [light, positive, heavy, near] [near, positive, light, heavy] ∧
      select s [near, positive, light, heavy] {} c =
        .ok (.drawn heavy, { source := ⟨#[0.5], 1⟩, count := 1 }) ∧
      select s [near, positive, light, heavy] { left := some "B" } c =
        .error (.divisionByZero 1.0) := by
  intro s positive near light heavy c
  have horder : SameOrder [light, positive, heavy, near] [near, positive, light, heavy] := by
    intro kind weighted
    -- there are eight classes, each with two rules at most
    cases kind <;> cases weighted <;> decide +kernel
  have hdrawn : select s [light, positive, heavy, near] {} c =
      .ok (.drawn heavy, { source := ⟨#[0.5], 1⟩, count := 1 }) := by decide +kernel
  have hfails : select s [light, positive, heavy, near] { left := some "B" } c =
      .error (.divisionByZero 1.0) := by decide +kernel
  exact ⟨horder, (select_of_sameOrder horder s {} c).symm.trans hdrawn,
    (select_of_sameOrder horder s { left := some "B" } c).symm.trans hfails⟩

end Arbor
