import Arbor.Derivation.Selection
import Arbor.Proofs.Outcome
import Arbor.Proofs.Reach

/-!
# What the choice of a rule decides

The choice of a rule is documented by tiers: the most specific context with an accepting rule
decides, rules without weight go first, and the accepting rules with weights are drawn by lot. This
module states that resolution without an order of evaluation and proves that `select` carries it
out.

* `Rule.Accepts`, `Rule.Fails`: what a rule says to a symbol, by its number of parameters and the
  value of its condition. A rule that does neither declines (`Rule.Declines`).
* Both the order of the tiers and the order of the rules in a tier enter only through `ReachedIn`:
  going down a list as long as its members pass a test.
* `Decides`: a tier with an accepting rule, below tiers without one.
* `Inquired`: the rules whose conditions the choice comes to.
* `select_resolution`: the choice fails exactly if a rule fails that it comes to. Otherwise it keeps
  the symbol where no tier decides; where one does, it takes the first accepting rule without weight
  and, if there is none, draws from exactly the accepting rules with weights. It makes one draw when
  two or more rules are put to the lot, and none at any other time; nor does a choice that fails
  (`attemptSelect`).

Each function of the choice has one lemma that lists what it can come to (`firstFixed_cases`,
`weightedCandidates_cases`, `selectInTier_cases`, `selectInTiers_cases`). That the listed cases
exclude each other is one fact about lists: two ways down a list that stop at each other's ends are
the same way (`ReachedIn.unique`).
-/

namespace Arbor

open Outcome

/-! ### What a rule says to a symbol -/

namespace Rule

/-- **Acceptance.** The symbol has as many parameters as the rule names, and the condition, if there
is one, has a value that counts as true. -/
def Accepts (r : Rule) (s : Symbol Float) : Prop :=
  r.params.length = s.arity ∧
    ∀ c, r.condition = some c → ∃ v, c.eval (r.env s) = .ok v ∧ isTruthy v = true

/-- **Failure.** The symbol has as many parameters as the rule names, and the condition has no
value. -/
def Fails (r : Rule) (s : Symbol Float) (e : EvalError) : Prop :=
  r.params.length = s.arity ∧ ∃ c, r.condition = some c ∧ c.eval (r.env s) = .error e

/-- **Refusal.** The rule neither accepts nor fails. -/
def Declines (r : Rule) (s : Symbol Float) : Prop := ¬ r.Accepts s ∧ ∀ e, ¬ r.Fails s e

/-- A condition counts as its value does, if it has one. -/
theorem isTrue_eq_ok_iff {c : Expr} {env : Env} {b : Bool} :
    c.isTrue env = .ok b ↔ ∃ v, c.eval env = .ok v ∧ isTruthy v = b := by
  simp only [Expr.isTrue, bind_eq_ok_iff, pure_eq_ok, Except.ok.injEq]

/-- A condition fails as its evaluation does. -/
theorem isTrue_eq_error_iff {c : Expr} {env : Env} {e : EvalError} :
    c.isTrue env = .error e ↔ c.eval env = .error e := by
  simp [Expr.isTrue, bind_eq_error_iff]

/-- What the program takes for acceptance is acceptance. -/
theorem accepts_eq_true_iff {r : Rule} {s : Symbol Float} :
    r.accepts s = .ok true ↔ r.Accepts s := by
  -- a rule of another arity is refused before its condition is looked at
  by_cases h : r.params.length = s.arity
  · cases hc : r.condition with
    | none => simp [accepts, matchesArity, holds, Accepts, h, hc]
    | some c => simp [accepts, matchesArity, holds, Accepts, h, hc, isTrue_eq_ok_iff]
  · simp [accepts, matchesArity, Accepts, h]

/-- What the program takes for a failure is a failure. -/
theorem accepts_eq_error_iff {r : Rule} {s : Symbol Float} {e : EvalError} :
    r.accepts s = .error e ↔ r.Fails s e := by
  by_cases h : r.params.length = s.arity
  · cases hc : r.condition with
    | none => simp [accepts, matchesArity, holds, Fails, h, hc]
    | some c => simp [accepts, matchesArity, holds, Fails, h, hc, isTrue_eq_error_iff]
  · simp [accepts, matchesArity, Fails, h]

/-- What the program takes for a refusal is a refusal. -/
theorem accepts_eq_false_iff {r : Rule} {s : Symbol Float} :
    r.accepts s = .ok false ↔ r.Declines s := by
  -- the program has three answers, and two of them are known already
  rw [Declines, ← accepts_eq_true_iff]
  simp only [← accepts_eq_error_iff]
  cases h : r.accepts s with
  | ok b => cases b <;> simp
  | error e => simp

instance (r : Rule) (s : Symbol Float) : Decidable (r.Accepts s) :=
  match h : r.accepts s with
  | .ok true => isTrue (accepts_eq_true_iff.1 h)
  | .ok false => isFalse (accepts_eq_false_iff.1 h).1
  | .error e => isFalse fun ha => by simp [accepts_eq_true_iff.2 ha] at h

/-- An accepting rule does not fail. -/
theorem Accepts.not_fails {r : Rule} {s : Symbol Float} (h : r.Accepts s) (e : EvalError) :
    ¬ r.Fails s e := by
  rw [← accepts_eq_error_iff, accepts_eq_true_iff.2 h]
  simp

/-- A rule fails with one error only. -/
theorem Fails.unique {r : Rule} {s : Symbol Float} {e d : EvalError} (he : r.Fails s e)
    (hd : r.Fails s d) : e = d := by
  rw [← accepts_eq_error_iff] at he hd
  rw [he] at hd
  exact Except.error.inj hd

/-- What a rule can say to a symbol. -/
theorem accepts_or_declines_or_fails (r : Rule) (s : Symbol Float) :
    r.Accepts s ∨ r.Declines s ∨ ∃ e, r.Fails s e := by
  cases h : r.accepts s with
  | ok b =>
    cases b with
    | true => exact .inl (accepts_eq_true_iff.1 h)
    | false => exact .inr (.inl (accepts_eq_false_iff.1 h))
  | error e => exact .inr (.inr ⟨e, accepts_eq_error_iff.1 h⟩)

end Rule

/-! ### One tier -/

section Tier

variable {s : Symbol Float} {rs : List Rule} {r : Rule} {e : EvalError}

/-- A rule without weight that lets the choice go on. -/
def PassesFixed (s : Symbol Float) (r : Rule) : Prop := r.isStochastic = false → r.Declines s

/-- A rule with a weight that lets the choice go on. -/
def PassesWeighted (s : Symbol Float) (r : Rule) : Prop :=
  r.isStochastic = true → ∀ e, ¬ r.Fails s e

/-- **The lot.** The accepting rules with weights, in their order. -/
def lotOf (s : Symbol Float) (rs : List Rule) : List Rule :=
  rs.filter fun r => r.isStochastic && decide (r.Accepts s)

/-- The lot holds exactly the accepting rules with weights. -/
theorem mem_lotOf : r ∈ lotOf s rs ↔ r ∈ rs ∧ r.isStochastic = true ∧ r.Accepts s := by
  rw [lotOf, List.mem_filter, Bool.and_eq_true, decide_eq_true_eq]

/-- **Inquiry in a tier.** First the rules without weight are asked, up to one that accepts; then, if
all decline, the rules with weights. -/
inductive InquiredIn (s : Symbol Float) (rs : List Rule) (r : Rule) : Prop
  | fixed (plain : r.isStochastic = false) (reached : ReachedIn (PassesFixed s) rs r)
  | weighted (weighted : r.isStochastic = true) (fixed : ∀ q ∈ rs, PassesFixed s q)
      (reached : ReachedIn (PassesWeighted s) rs r)

/-- Only rules of the tier are asked in it. -/
theorem InquiredIn.mem (h : InquiredIn s rs r) : r ∈ rs := by
  cases h with
  | fixed plain reached => exact reached.mem
  | weighted weighted fixed reached => exact reached.mem

/-- The search for a rule without weight finds none, or ends at the first that does not decline. -/
theorem firstFixed_cases (s : Symbol Float) (rs : List Rule) :
    (firstFixed s rs = .ok none ∧ ∀ q ∈ rs, PassesFixed s q) ∨
      ∃ r, r.isStochastic = false ∧ ReachedIn (PassesFixed s) rs r ∧
        (firstFixed s rs = .ok (some r) ∧ r.Accepts s ∨
          ∃ e, firstFixed s rs = .error e ∧ r.Fails s e) := by
  induction rs with
  | nil => exact .inl ⟨rfl, by simp⟩
  | cons q rs ih =>
    simp only [reachedIn_cons, List.forall_mem_cons]
    by_cases hq : q.isStochastic
    · -- a rule with a weight is passed over
      have hstep : firstFixed s (q :: rs) = firstFixed s rs := by simp [firstFixed, hq]
      have hpass : PassesFixed s q := fun h => by simp [hq] at h
      rw [hstep]
      refine ih.imp (fun h => ⟨h.1, hpass, h.2⟩) ?_
      rintro ⟨r, hr, hreach, h⟩
      exact ⟨r, hr, .inr ⟨hpass, hreach⟩, h⟩
    · -- the search ends here unless the rule declines
      rw [Bool.not_eq_true] at hq
      rcases q.accepts_or_declines_or_fails s with h | h | ⟨e, h⟩
      · -- it accepts, and is found
        refine .inr ⟨q, hq, .inl rfl, .inl ⟨?_, h⟩⟩
        simp [firstFixed, hq, Rule.accepts_eq_true_iff.2 h]
      · -- it declines, and the search goes on behind it
        have hstep : firstFixed s (q :: rs) = firstFixed s rs := by
          simp [firstFixed, hq, Rule.accepts_eq_false_iff.2 h]
        rw [hstep]
        refine ih.imp (fun ih => ⟨ih.1, fun _ => h, ih.2⟩) ?_
        rintro ⟨r, hr, hreach, hout⟩
        exact ⟨r, hr, .inr ⟨fun _ => h, hreach⟩, hout⟩
      · -- its condition has no value, and the search is at an end
        refine .inr ⟨q, hq, .inl rfl, .inr ⟨e, ?_, h⟩⟩
        simp [firstFixed, hq, Rule.accepts_eq_error_iff.2 h]

/-- The accepting rules with weights are the lot, unless one of those asked fails. -/
theorem weightedCandidates_cases (s : Symbol Float) (rs : List Rule) :
    (weightedCandidates s rs = .ok (lotOf s rs) ∧ ∀ q ∈ rs, PassesWeighted s q) ∨
      ∃ r e, weightedCandidates s rs = .error e ∧ r.isStochastic = true ∧
        ReachedIn (PassesWeighted s) rs r ∧ r.Fails s e := by
  induction rs with
  | nil => exact .inl ⟨rfl, by simp⟩
  | cons q rs ih =>
    simp only [reachedIn_cons, List.forall_mem_cons]
    by_cases hq : q.isStochastic
    · -- only a failure ends the search; an accepting rule joins the lot
      rcases q.accepts_or_declines_or_fails s with h | h | ⟨e, h⟩
      · -- it accepts: it joins the lot, and the others are asked after it
        have hpass : PassesWeighted s q := fun _ => h.not_fails
        rcases ih with ⟨hok, hall⟩ | ⟨r, e, herr, hr, hreach, hfails⟩
        · refine .inl ⟨?_, hpass, hall⟩
          simp [weightedCandidates, lotOf, hq, Rule.accepts_eq_true_iff.2 h, hok, h]
        · refine .inr ⟨r, e, ?_, hr, .inr ⟨hpass, hreach⟩, hfails⟩
          simp [weightedCandidates, hq, Rule.accepts_eq_true_iff.2 h, herr]
      · -- it declines: the lot is that of the others
        have hpass : PassesWeighted s q := fun _ => h.2
        rcases ih with ⟨hok, hall⟩ | ⟨r, e, herr, hr, hreach, hfails⟩
        · refine .inl ⟨?_, hpass, hall⟩
          simp [weightedCandidates, lotOf, hq, Rule.accepts_eq_false_iff.2 h, hok, h.1]
        · refine .inr ⟨r, e, ?_, hr, .inr ⟨hpass, hreach⟩, hfails⟩
          simp [weightedCandidates, hq, Rule.accepts_eq_false_iff.2 h, herr]
      · -- it fails, and no lot is formed
        refine .inr ⟨q, e, ?_, hq, .inl rfl, h⟩
        simp [weightedCandidates, hq, Rule.accepts_eq_error_iff.2 h]
    · -- a rule without weight is passed over, and it does not belong to the lot
      have hpass : PassesWeighted s q := fun h => absurd h hq
      have hstep : weightedCandidates s (q :: rs) = weightedCandidates s rs := by
        simp [weightedCandidates, hq]
      have hlot : lotOf s (q :: rs) = lotOf s rs := by simp [lotOf, hq]
      rw [hstep, hlot]
      refine ih.imp (fun ih => ⟨ih.1, hpass, ih.2⟩) ?_
      rintro ⟨r, e, herr, hr, hreach, hfails⟩
      exact ⟨r, e, herr, hr, .inr ⟨hpass, hreach⟩, hfails⟩

end Tier

/-! ### The lot -/

variable {σ : Type} [Draws σ]

/-- A point lands on one of the weights; on the last one, if it lies behind all others. -/
theorem land_lt {α : Type} [Add α] [LT α] [DecidableLT α] (point : α) :
    ∀ (weights : List α) (reached : α), weights ≠ [] →
      Roulette.land point reached weights < weights.length
  | [], _, h => absurd rfl h
  | [_], _, _ => by simp [Roulette.land]
  | w :: v :: ws, reached, _ => by
    simp only [Roulette.land]
    split
    · -- it lands on the first weight
      simp
    · -- or behind it, among the others
      have := land_lt point (v :: ws) (reached + w) (by simp)
      simp only [List.length_cons] at this ⊢
      omega

/-- A lot picks one of its candidates. -/
theorem drawLot_lt (first : Rule) (others : List Rule) (g : σ) :
    (drawLot first others g).1 < (first :: others).length := by
  unfold drawLot
  split
  · -- a single candidate needs no draw
    simp
  · have := land_lt ((Draws.next g).1 * Roulette.total ((first :: others).map Rule.lot))
      ((first :: others).map Rule.lot) 0 (by simp)
    simpa [Roulette.pick] using this

/-- A lot makes one draw if it has two candidates or more. -/
theorem drawLot_source (first : Rule) (others : List Rule) (g : σ) :
    (drawLot first others g).2 =
      if 2 ≤ (first :: others).length then (Draws.next g).2 else g := by
  cases others <;> simp [drawLot]

/-! ### Selection in one tier and in several -/

/-- What the choice in one tier comes to: all rules decline, a rule without weight accepts, the lot
decides, or a rule fails. -/
theorem selectInTier_cases (s : Symbol Float) (rs : List Rule) (g : σ) :
    (selectInTier s rs g = .ok (.keep, g) ∧ ∀ r ∈ rs, r.Declines s) ∨
    (∃ r, selectInTier s rs g = .ok (.fixed r, g) ∧ r.isStochastic = false ∧ r.Accepts s ∧
      ReachedIn (PassesFixed s) rs r) ∨
    (∃ r i g', selectInTier s rs g = .ok (.drawn r, g') ∧ (∀ q ∈ rs, PassesFixed s q) ∧
      (∀ q ∈ rs, PassesWeighted s q) ∧ drawLotFrom (lotOf s rs) g = .ok (i, g') ∧
      (lotOf s rs)[i]? = some r) ∨
    ∃ r e, selectInTier s rs g = .error e ∧ InquiredIn s rs r ∧ r.Fails s e := by
  rcases firstFixed_cases s rs with ⟨hnone, hfixed⟩ | ⟨r, hr, hreach, ⟨hsome, hacc⟩ | ⟨e, herr, hfails⟩⟩
  · -- no rule without weight accepts, so those with weights are asked
    rcases weightedCandidates_cases s rs with ⟨hlot, hweighted⟩ | ⟨r, e, herr, hr, hreach, hfails⟩
    · cases hcands : lotOf s rs with
      | nil =>
        refine .inl ⟨by simp [selectInTier, hnone, hlot, hcands], fun r hr => ?_⟩
        -- a rule with a weight cannot accept, because the lot is empty
        by_cases hs : r.isStochastic
        · refine ⟨fun hacc => ?_, hweighted r hr hs⟩
          have hmem := mem_lotOf.2 ⟨hr, hs, hacc⟩
          rw [hcands] at hmem
          exact absurd hmem List.not_mem_nil
        · exact hfixed r hr (by simpa using hs)
      | cons first others =>
        -- the draw gives a place in the lot, so there is a rule at it
        have hlt := drawLot_lt first others g
        refine .inr (.inr (.inl ⟨(first :: others)[(drawLot first others g).1],
          (drawLot first others g).1, (drawLot first others g).2, ?_, hfixed, hweighted, rfl, ?_⟩))
        · simp [selectInTier, hnone, hlot, hcands, List.getElem?_eq_getElem hlt]
        · exact List.getElem?_eq_getElem hlt
    · -- a rule with a weight fails while the lot is formed
      refine .inr (.inr (.inr ⟨r, e, ?_, .weighted hr hfixed hreach, hfails⟩))
      simp [selectInTier, hnone, herr]
  · -- a rule without weight accepts, and those with weights are not asked
    exact .inr (.inl ⟨r, by simp [selectInTier, hsome], hr, hacc, hreach⟩)
  · -- a rule without weight fails
    exact .inr (.inr (.inr ⟨r, e, by simp [selectInTier, herr], .fixed hr hreach, hfails⟩))

section Tiers

variable (s : Symbol Float) (rules : List Rule) (ctx : Neighbours)

/-- **Silence.** All rules of a tier decline. -/
def Silent (kind : ContextKind) : Prop := ∀ r ∈ tier rules ctx kind, r.Declines s

/-- **Inquiry.** The tiers are gone down from the most specific on, as long as they are silent. -/
def Inquired (r : Rule) : Prop :=
  ∃ kind, ReachedIn (Silent s rules ctx) ContextKind.all kind ∧ InquiredIn s (tier rules ctx kind) r

/-- **The deciding tier.** The most specific one that has an accepting rule. -/
def Decides (kind : ContextKind) : Prop :=
  ReachedIn (fun k => ∀ r ∈ tier rules ctx k, ¬ r.Accepts s) ContextKind.all kind ∧
    ∃ r ∈ tier rules ctx kind, r.Accepts s

/-- The choice in several tiers is that in the first of them that is not silent. -/
theorem selectInTiers_cases (kinds : List ContextKind) (g : σ) :
    (selectInTiers s rules ctx kinds g = .ok (.keep, g) ∧ ∀ k ∈ kinds, Silent s rules ctx k) ∨
      ∃ kind, ReachedIn (Silent s rules ctx) kinds kind ∧ ¬ Silent s rules ctx kind ∧
        selectInTiers s rules ctx kinds g = selectInTier s (tier rules ctx kind) g := by
  induction kinds with
  | nil => exact .inl ⟨rfl, by simp⟩
  | cons kind kinds ih =>
    simp only [reachedIn_cons, List.forall_mem_cons]
    rcases selectInTier_cases s (tier rules ctx kind) g with
      ⟨hkeep, hsilent⟩ | ⟨r, hfix, -, hacc, hreach⟩ | ⟨r, i, g', hdrawn, -, -, hlot, hr⟩ |
      ⟨r, e, herr, hinq, hfails⟩
    · -- a silent tier leaves the source as it was to the next one
      have hstep : selectInTiers s rules ctx (kind :: kinds) g =
          selectInTiers s rules ctx kinds g := by simp [selectInTiers, hkeep]
      rw [hstep]
      refine ih.imp (fun h => ⟨h.1, hsilent, h.2⟩) ?_
      rintro ⟨k, hreach, hk, heq⟩
      exact ⟨k, .inr ⟨hsilent, hreach⟩, hk, heq⟩
    · -- in the three other cases a rule of the tier does not decline, so the search ends with it
      refine .inr ⟨kind, .inl rfl, fun h => (h r hreach.mem).1 hacc, ?_⟩
      simp [selectInTiers, hfix]
    · -- what was drawn is in the lot, and so it is an accepting rule of the tier
      have hmem := mem_lotOf.1 (List.mem_of_getElem? hr)
      refine .inr ⟨kind, .inl rfl, fun h => (h r hmem.1).1 hmem.2.2, ?_⟩
      simp [selectInTiers, hdrawn]
    · refine .inr ⟨kind, .inl rfl, fun h => (h r hinq.mem).2 e hfails, ?_⟩
      simp [selectInTiers, herr]

/-- **A lot is needed**: the deciding tier has no accepting rule without weight and two accepting
rules with weights or more. -/
def NeedsDraw : Prop :=
  ∃ kind, Decides s rules ctx kind ∧
    (∀ r ∈ tier rules ctx kind, r.isStochastic = false → ¬ r.Accepts s) ∧
    2 ≤ (lotOf s (tier rules ctx kind)).length

variable {s rules ctx} {kind : ContextKind}

/-- The tier at which silence ends is the deciding one, if it has an accepting rule. -/
theorem decides_of_reached (h : ReachedIn (Silent s rules ctx) ContextKind.all kind)
    (hacc : ∃ r ∈ tier rules ctx kind, r.Accepts s) : Decides s rules ctx kind :=
  ⟨h.imp fun _ _ hsilent r hr => (hsilent r hr).1, hacc⟩

/-- At most one tier decides. -/
theorem Decides.unique {k : ContextKind} (h : Decides s rules ctx kind)
    (hk : Decides s rules ctx k) : kind = k := by
  obtain ⟨hreach, r, hr, hacc⟩ := h
  obtain ⟨hreach', r', hr', hacc'⟩ := hk
  exact hreach.unique hreach' (fun hnone => hnone r hr hacc) (fun hnone => hnone r' hr' hacc')

/-- Of the rules that a tier comes to, one can fail only in one way. -/
theorem InquiredIn.fails_unique {rs : List Rule} {r r' : Rule} {e e' : EvalError}
    (h : InquiredIn s rs r) (he : r.Fails s e) (h' : InquiredIn s rs r') (he' : r'.Fails s e') :
    e = e' := by
  -- a failure stops the inquiry, so both rules are the one at which it stops
  cases h with
  | fixed plain reached =>
    have hstop : ¬ PassesFixed s r := fun hpass => (hpass plain).2 e he
    cases h' with
    | fixed plain' reached' =>
      have hstop' : ¬ PassesFixed s r' := fun hpass => (hpass plain').2 e' he'
      obtain rfl := reached.unique reached' hstop hstop'
      exact he.unique he'
    -- the other rule was reached after all rules without weight had declined
    | weighted _ fixed' _ => exact absurd (fixed' r reached.mem) hstop
  | weighted weighted fixed reached =>
    cases h' with
    -- the same with the two rules exchanged
    | fixed plain' reached' => exact absurd he' ((fixed r' reached'.mem plain').2 e')
    | weighted weighted' _ reached' =>
      obtain rfl := reached.unique reached' (fun hpass => hpass weighted e he)
        (fun hpass => hpass weighted' e' he')
      exact he.unique he'

variable (s rules ctx)

/-! ### The source that a choice leaves -/

/-- The choice in one tier, with the source that is left where it succeeds and where it fails. Conditions
come before the draw. -/
def attemptInTier (s : Symbol Float) (rules : List Rule) (g : σ) : Except EvalError Selection × σ :=
  match firstFixed s rules with
  | .error e => (.error e, g)
  | .ok (some r) => (.ok (.fixed r), g)
  | .ok none =>
    match weightedCandidates s rules with
    | .error e => (.error e, g)
    | .ok [] => (.ok .keep, g)
    | .ok (first :: others) =>
      let (i, g) := drawLot first others g
      (.ok (.drawn ((first :: others).getD i first)), g)

/-- The choice in several tiers, with the source that is left in either case. -/
def attemptInTiers (s : Symbol Float) (rules : List Rule) (ctx : Neighbours) :
    List ContextKind → σ → Except EvalError Selection × σ
  | [], g => (.ok .keep, g)
  | kind :: kinds, g =>
    match attemptInTier s (tier rules ctx kind) g with
    | (.ok .keep, g) => attemptInTiers s rules ctx kinds g
    | found => found

/-- **The whole choice**, with the source that is left in either case. -/
def attemptSelect (s : Symbol Float) (rules : List Rule) (ctx : Neighbours) (g : σ) :
    Except EvalError Selection × σ :=
  attemptInTiers s rules ctx ContextKind.all g

/-- What the choice in one tier leaves: where it fails, and where all rules decline, the source is as it
was. -/
theorem attemptInTier_eq (g : σ) :
    attemptInTier s rules g =
      match selectInTier s rules g with
      | .error e => (.error e, g)
      | .ok (.keep, _) => (.ok .keep, g)
      | .ok (chosen, g') => (.ok chosen, g') := by
  -- both are defined by the same cases, so each outcome is compared with itself
  unfold attemptInTier selectInTier
  cases firstFixed s rules with
  | error e => rfl
  | ok found =>
    cases found with
    | some r => rfl
    | none =>
      cases weightedCandidates s rules with
      | error e => rfl
      -- the lot is drawn in the last case only
      | ok candidates => cases candidates <;> rfl

/-- A choice in several tiers that fails leaves the source as it was, since the tiers before the one at
fault are silent. -/
theorem attemptInTiers_eq (kinds : List ContextKind) (g : σ) :
    attemptInTiers s rules ctx kinds g =
      match selectInTiers s rules ctx kinds g with
      | .error e => (.error e, g)
      | .ok (chosen, g') => (.ok chosen, g') := by
  induction kinds with
  | nil => rfl
  | cons kind kinds ih =>
    rw [attemptInTiers, attemptInTier_eq, selectInTiers]
    rcases selectInTier_cases s (tier rules ctx kind) g with
      ⟨hkeep, -⟩ | ⟨r, hfix, -⟩ | ⟨r, i, g', hdrawn, -⟩ | ⟨r, e, herr, -⟩
    · -- the tier is silent, and its source is the one that the others start from
      rw [hkeep]
      exact ih
    · rw [hfix]
      rfl
    · rw [hdrawn]
      rfl
    · rw [herr]
      rfl

/-- **A choice with its source**: one that fails has not drawn. -/
theorem attemptSelect_eq (g : σ) :
    attemptSelect s rules ctx g =
      match select s rules ctx g with
      | .error e => (.error e, g)
      | .ok (chosen, g') => (.ok chosen, g') :=
  attemptInTiers_eq s rules ctx ContextKind.all g

/-- A choice is its attempt without the source of a failure. -/
theorem select_eq_attemptSelect (g : σ) :
    select s rules ctx g = settled (attemptSelect s rules ctx g) := by
  rw [attemptSelect_eq]
  cases select s rules ctx g <;> rfl

/-- A choice that fails leaves the source as it was. -/
theorem attemptSelect_of_error {g : σ} {e : EvalError} (h : select s rules ctx g = .error e) :
    attemptSelect s rules ctx g = (.error e, g) := by
  rw [attemptSelect_eq, h]

/-! ### What the choice comes to -/

/-- What the choice comes to: the symbol is kept, a rule without weight or a lot of the deciding tier
gives the rule, or a rule fails. -/
theorem select_cases (g : σ) :
    (select s rules ctx g = .ok (.keep, g) ∧ ∀ k ∈ ContextKind.all, Silent s rules ctx k) ∨
    (∃ kind r, select s rules ctx g = .ok (.fixed r, g) ∧ Decides s rules ctx kind ∧
      r.isStochastic = false ∧ r.Accepts s ∧
      ReachedIn (PassesFixed s) (tier rules ctx kind) r ∧
      ReachedIn (Silent s rules ctx) ContextKind.all kind) ∨
    (∃ kind r i g', select s rules ctx g = .ok (.drawn r, g') ∧ Decides s rules ctx kind ∧
      (∀ q ∈ tier rules ctx kind, PassesFixed s q) ∧
      (∀ q ∈ tier rules ctx kind, PassesWeighted s q) ∧
      drawLotFrom (lotOf s (tier rules ctx kind)) g = .ok (i, g') ∧
      (lotOf s (tier rules ctx kind))[i]? = some r ∧
      ReachedIn (Silent s rules ctx) ContextKind.all kind) ∨
    ∃ kind r e, select s rules ctx g = .error e ∧
      ReachedIn (Silent s rules ctx) ContextKind.all kind ∧
      InquiredIn s (tier rules ctx kind) r ∧ r.Fails s e := by
  unfold select
  rcases selectInTiers_cases s rules ctx ContextKind.all g with h | ⟨kind, hreach, hloud, heq⟩
  · exact .inl h
  · rw [heq]
    refine .inr ?_
    rcases selectInTier_cases s (tier rules ctx kind) g with
      ⟨-, hsilent⟩ | ⟨r, hfix, hplain, hacc, hr⟩ | ⟨r, i, g', hdrawn, hfixed, hweighted, hlot, hr⟩ |
      ⟨r, e, herr, hinq, hfails⟩
    · -- the search has ended at a tier that is not silent
      exact absurd hsilent hloud
    · exact .inl ⟨kind, r, hfix, decides_of_reached hreach ⟨r, hr.mem, hacc⟩, hplain, hacc, hr,
        hreach⟩
    · -- the rule comes from the lot, so it is an accepting rule of the tier
      have hmem := mem_lotOf.1 (List.mem_of_getElem? hr)
      exact .inr (.inl ⟨kind, r, i, g', hdrawn,
        decides_of_reached hreach ⟨r, hmem.1, hmem.2.2⟩, hfixed, hweighted, hlot, hr, hreach⟩)
    · exact .inr (.inr ⟨kind, r, e, herr, hreach, hinq, hfails⟩)

/-- A chosen rule is one of the rules, and it accepts the symbol. -/
theorem mem_of_select {g g' : σ} {chosen : Selection} {r : Rule}
    (h : select s rules ctx g = .ok (chosen, g')) (hr : chosen.rule? = some r) :
    r ∈ rules ∧ r.Accepts s := by
  rcases select_cases s rules ctx g with ⟨hok, -⟩ | ⟨_, q, hok, -, -, hacc, hq, -⟩ |
    ⟨kind, q, _, _, hok, -, -, -, -, hq, -⟩ | ⟨_, _, _, herr, -⟩
  · -- a symbol that is kept has no rule
    simp only [hok, Except.ok.injEq, Prod.mk.injEq] at h
    simp [← h.1, Selection.rule?] at hr
  · simp only [hok, Except.ok.injEq, Prod.mk.injEq] at h
    simp only [← h.1, Selection.rule?, Option.some.injEq] at hr
    rw [← hr]
    exact ⟨(List.mem_filter.1 hq.mem).1, hacc⟩
  · have hmem := mem_lotOf.1 (List.mem_of_getElem? hq)
    simp only [hok, Except.ok.injEq, Prod.mk.injEq] at h
    simp only [← h.1, Selection.rule?, Option.some.injEq] at hr
    rw [← hr]
    exact ⟨(List.mem_filter.1 hmem.1).1, hmem.2.2⟩
  · simp [herr] at h

/-- The choice fails exactly if it comes to a rule that fails. -/
theorem select_eq_error_iff (g : σ) (e : EvalError) :
    select s rules ctx g = .error e ↔ ∃ r, Inquired s rules ctx r ∧ r.Fails s e := by
  constructor
  · intro h
    rcases select_cases s rules ctx g with ⟨hok, -⟩ | ⟨_, _, hok, -⟩ | ⟨_, _, _, _, hok, -⟩ |
      ⟨kind, r, e', herr, hreach, hinq, hfails⟩
    · -- in the first three cases the choice succeeds
      simp [hok] at h
    · simp [hok] at h
    · simp [hok] at h
    · rw [herr] at h
      exact ⟨r, ⟨kind, hreach, hinq⟩, Except.error.inj h ▸ hfails⟩
  · rintro ⟨r, ⟨k, hk, hinq⟩, hfails⟩
    -- a tier with a failing rule is not silent, so the search gets no further
    have hloud : ¬ Silent s rules ctx k := fun h => (h r hinq.mem).2 e hfails
    rcases select_cases s rules ctx g with ⟨-, hsilent⟩ |
      ⟨kind, q, -, -, hplain, hacc, hq, hreach⟩ |
      ⟨kind, q, i, g', -, ⟨-, a, ha, hacc⟩, hfixed, hweighted, -, -, hreach⟩ |
      ⟨kind, q, e', herr, hreach, hinq', hfails'⟩
    · exact absurd (hsilent k hk.mem) hloud
    · -- a rule without weight was chosen in that tier: it stands before the failing one or is it
      obtain rfl := hk.unique hreach hloud fun h => (h q hq.mem).1 hacc
      exfalso
      cases hinq with
      | fixed plain reached =>
        obtain rfl := reached.unique hq (fun h => (h plain).2 e hfails) fun h => (h hplain).1 hacc
        exact hacc.not_fails e hfails
      | weighted weighted fixed reached => exact (fixed q hq.mem hplain).1 hacc
    · -- the lot has decided in that tier, after all its rules were asked
      obtain rfl := hk.unique hreach hloud fun h => (h a ha).1 hacc
      exfalso
      cases hinq with
      | fixed plain reached => exact (hfixed r reached.mem plain).2 e hfails
      | weighted weighted fixed reached => exact hweighted r reached.mem weighted e hfails
    · -- the choice has failed in that tier, and a tier fails with one error only
      obtain rfl := hk.unique hreach hloud fun h => (h q hinq'.mem).2 e' hfails'
      rw [herr, hinq.fails_unique hfails hinq' hfails']

/-- The number of draws of a choice from a source that counts them. -/
theorem count_select (c c' : Counted σ) (out : Selection)
    (h : select s rules ctx c = .ok (out, c')) :
    (NeedsDraw s rules ctx → c'.count = c.count + 1) ∧ (¬ NeedsDraw s rules ctx → c' = c) := by
  rcases select_cases s rules ctx c with ⟨hok, hsilent⟩ |
    ⟨kind, r, hok, hdec, hplain, hacc, hr, -⟩ |
    ⟨kind, r, i, g', hok, hdec, hfixed, -, hlot, -, -⟩ | ⟨_, _, _, herr, -⟩
  · -- without an accepting rule no tier decides
    simp only [hok, Except.ok.injEq, Prod.mk.injEq] at h
    refine ⟨?_, fun _ => h.2.symm⟩
    rintro ⟨k, ⟨hreach, r, hr, hacc⟩, -⟩
    exact absurd hacc (hsilent k hreach.mem r hr).1
  · simp only [hok, Except.ok.injEq, Prod.mk.injEq] at h
    refine ⟨?_, fun _ => h.2.symm⟩
    -- a rule without weight was chosen, so none is put to the lot
    rintro ⟨k, hk, hnone, -⟩
    obtain rfl := hk.unique hdec
    exact absurd hacc (hnone r hr.mem hplain)
  · simp only [hok, Except.ok.injEq, Prod.mk.injEq] at h
    obtain ⟨-, rfl⟩ := h
    -- the deciding tier is the one from which was drawn, so only the size of its lot is in question
    have hneeds : NeedsDraw s rules ctx ↔ 2 ≤ (lotOf s (tier rules ctx kind)).length := by
      refine ⟨?_, fun h2 => ⟨kind, hdec, fun q hq hp => (hfixed q hq hp).1, h2⟩⟩
      rintro ⟨k, hk, -, h2⟩
      rwa [hdec.unique hk]
    rw [hneeds]
    cases hcands : lotOf s (tier rules ctx kind) with
    -- an empty lot draws no rule
    | nil => simp [hcands, drawLotFrom] at hlot
    | cons first others =>
      simp only [hcands, drawLotFrom, Except.ok.injEq] at hlot
      have hsource : g' = (drawLot first others c).2 := by rw [hlot]
      rw [hsource, drawLot_source]
      refine ⟨fun h2 => ?_, fun h2 => by rw [if_neg h2]⟩
      rw [if_pos h2]
      rfl
  · simp [herr] at h

/-- **Resolution.** The choice fails exactly if it comes to a rule that fails. Otherwise the most
specific tier with an accepting rule decides, by its first accepting rule without weight or, if there
is none, by a lot among its accepting rules with weights; with no such tier the symbol is kept. One
draw is made when two rules or more are put to the lot, and none at any other time; a choice that fails
leaves the source as it was. -/
theorem select_resolution (g : σ) :
    (∀ e, select s rules ctx g = .error e ↔ ∃ r, Inquired s rules ctx r ∧ r.Fails s e) ∧
    ((∀ r e, Inquired s rules ctx r → ¬ r.Fails s e) →
      ((∀ kind, ¬ Decides s rules ctx kind) → select s rules ctx g = .ok (.keep, g)) ∧
      ∀ kind, Decides s rules ctx kind →
        (∀ r, r.isStochastic = false → r.Accepts s →
          ReachedIn (fun q => q.isStochastic = false → ¬ q.Accepts s) (tier rules ctx kind) r →
          select s rules ctx g = .ok (.fixed r, g)) ∧
        ((∀ r ∈ tier rules ctx kind, r.isStochastic = false → ¬ r.Accepts s) →
          ∃ i r g', drawLotFrom (lotOf s (tier rules ctx kind)) g = .ok (i, g') ∧
            (lotOf s (tier rules ctx kind))[i]? = some r ∧
            select s rules ctx g = .ok (.drawn r, g'))) ∧
    (∀ (c c' : Counted σ) (out : Selection), select s rules ctx c = .ok (out, c') →
      (NeedsDraw s rules ctx → c'.count = c.count + 1) ∧ (¬ NeedsDraw s rules ctx → c' = c)) ∧
    select s rules ctx g = settled (attemptSelect s rules ctx g) ∧
    ∀ e, select s rules ctx g = .error e → attemptSelect s rules ctx g = (.error e, g) := by
  refine ⟨select_eq_error_iff s rules ctx g, fun hsound => ?_, count_select s rules ctx,
    select_eq_attemptSelect s rules ctx g, fun e => attemptSelect_of_error s rules ctx⟩
  rcases select_cases s rules ctx g with ⟨hok, hsilent⟩ |
    ⟨kind, q, hok, hdec, hplain, hacc, hq, -⟩ |
    ⟨kind, q, i, g', hok, hdec, hfixed, -, hlot, hq, -⟩ |
    ⟨kind, q, e, -, hreach, hinq, hfails⟩
  · -- nothing decides, and the symbol is kept
    refine ⟨fun _ => hok, ?_⟩
    rintro k ⟨hreach, r, hr, hacc⟩
    exact absurd hacc (hsilent k hreach.mem r hr).1
  · -- the tier that has decided is the only one that decides
    refine ⟨fun hnone => absurd hdec (hnone kind), fun k hk => ?_⟩
    obtain rfl := hk.unique hdec
    -- the first accepting rule without weight is the one that was reached
    refine ⟨fun r hr hracc hreach => ?_, fun hnone => absurd hacc (hnone q hq.mem hplain)⟩
    obtain rfl := hreach.unique hq (fun h => (h hr).1 hracc) fun h => h hplain hacc
    exact hok
  · refine ⟨fun hnone => absurd hdec (hnone kind), fun k hk => ?_⟩
    obtain rfl := hk.unique hdec
    -- no rule without weight accepts, so it was the lot
    exact ⟨fun r hr hracc hreach => absurd hracc (hfixed r hreach.mem hr).1,
      fun _ => ⟨i, q, g', hlot, hq, hok⟩⟩
  · exact absurd hfails (hsound q e ⟨kind, hreach, hinq⟩)

end Tiers

/-- A rule for any neighbours stands back behind two that ask for one on the left. These have weights,
so one draw is made between them. -/
theorem select_resolution_lot :
    let s : Symbol Float := ⟨"A", [], false⟩
    let anywhere : Rule := { predecessor := "A" }
    let light : Rule := { predecessor := "A", left := some "B", weight := some 1.0 }
    let heavy : Rule := { predecessor := "A", left := some "B", weight := some 3.0 }
    let c : Counted Replay := { source := ⟨#[0.5], 0⟩ }
    ∃ c', select s [anywhere, light, heavy] { left := some "B" } c = .ok (.drawn heavy, c') ∧
      c'.count = 1 := by
  intro s anywhere light heavy c
  have hleft : tier [anywhere, light, heavy] { left := some "B" } .left = [light, heavy] := by
    decide +kernel
  have hlot : lotOf s [light, heavy] = [light, heavy] := by decide +kernel
  have hsound : ∀ r e, Inquired s [anywhere, light, heavy] { left := some "B" } r →
      ¬ r.Fails s e := by
    rintro r e ⟨kind, -, hinquired⟩ ⟨-, cond, hcond, -⟩
    have hnone : ∀ q ∈ [anywhere, light, heavy], q.condition = none := by decide +kernel
    rw [hnone r (List.mem_filter.1 hinquired.mem).1] at hcond
    exact absurd hcond (by simp)
  have hdecides : Decides s [anywhere, light, heavy] { left := some "B" } .left := by
    refine ⟨⟨[.both], [.right, .free], rfl, ?_⟩, light, ?_, rfl, ?_⟩
    · have hboth : ∀ k ∈ [ContextKind.both],
          tier [anywhere, light, heavy] { left := some "B" } k = [] := by decide +kernel
      intro k hk r hr
      rw [hboth k hk] at hr
      exact absurd hr List.not_mem_nil
    · rw [hleft]
      exact List.mem_cons_self
    · intro cond hcond
      exact absurd hcond (by simp [light])
  have hweighted : ∀ r ∈ tier [anywhere, light, heavy] { left := some "B" } .left,
      r.isStochastic = false → ¬ r.Accepts s := by
    rw [hleft]
    decide +kernel
  have hpick : Roulette.pick ([light, heavy].map Rule.lot) 0.5 = 1 := by decide +kernel
  obtain ⟨i, r, c', hdraw, hr, hselect⟩ :=
    ((select_resolution s [anywhere, light, heavy] { left := some "B" } c).2.1 hsound).2 .left
      hdecides |>.2 hweighted
  rw [hleft, hlot] at hdraw hr
  obtain ⟨rfl, rfl⟩ := Prod.mk.inj (Except.ok.inj hdraw)
  change [light, heavy][Roulette.pick ([light, heavy].map Rule.lot) 0.5]? = some r at hr
  rw [hpick] at hr
  obtain rfl : heavy = r := Option.some.inj hr
  refine ⟨_, hselect,
    ((select_resolution s [anywhere, light, heavy] { left := some "B" } c.source).2.2.1
      c _ _ hselect).1 ⟨.left, hdecides, hweighted, ?_⟩⟩
  rw [hleft, hlot]
  exact Nat.le_refl 2

end Arbor
