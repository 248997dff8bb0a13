import Arbor.Proofs.Derivation.Depth

/-!
# Derivation without context and chance

Where no rule asks for a neighbour and none has a weight, a derivation treats every symbol by itself.
This is the classical case of an L-system, in which a step is a substitution: it puts for every symbol
its image, and the image of a word is that of its symbols, one after the other. So derivation is a
homomorphism of words, to any depth (`Grammar.iterate_append`).

A step hands the names of the neighbours and a source of draws to every choice of a rule all the same.
That the choice looks at neither is one lemma (`select_eq_of_plain`); from it a step is a substitution
that leaves the source as it was (`Grammar.attemptFrom_of_plain`), and by induction the course of a
derivation is that many substitutions (`Grammar.course_of_plain`). The laws of words are then proved of
substitutions, which know nothing of sources.

A substitution may fail, and its error has the position of the symbol in it. So the two halves of a
word fail with other errors than the whole, and perhaps some steps later. What they share is whether
they succeed, and for this the position plays no part (`Grammar.substituteFrom_eq_ok_iff`).
-/

namespace Arbor

open Outcome

/-! ### Rules that ask for nothing but their symbol -/

/-- **Plain rules** ask for no neighbour and have no weight. -/
structure Rule.Plain (r : Rule) : Prop where
  left : r.left = none
  right : r.right = none
  weight : r.weight = none

/-- **Plain grammars** have plain rules only. -/
def Grammar.Plain (gr : Grammar) : Prop := ∀ r ∈ gr.rules, r.Plain

/-- The rules that are looked up are rules of the grammar. -/
theorem Grammar.mem_rules_of_mem_rulesFor {gr : Grammar} {name : String} {r : Rule}
    (h : r ∈ gr.rulesFor name) : r ∈ gr.rules := by
  unfold rulesFor at h
  cases hgroup : gr.groups.lookup name with
  | none =>
    rw [hgroup] at h
    exact absurd h List.not_mem_nil
  | some rules =>
    rw [hgroup] at h
    -- the group is one of those that the rules of the grammar are collected from
    exact List.mem_flatMap.2 ⟨(name, rules), mem_of_lookup hgroup, h⟩

section Choice

variable {σ : Type} [Draws σ] {rules : List Rule}

/-- All plain rules are in the tier of the rules without context. -/
theorem tier_of_plain (h : ∀ r ∈ rules, r.Plain) (ctx : Neighbours) (kind : ContextKind) :
    tier rules ctx kind = if kind = .free then rules else [] := by
  -- a plain rule fits everywhere, and its kind is that of no context
  have hfits : ∀ r ∈ rules, (r.fits ctx && r.contextKind = kind) = decide (kind = .free) := by
    intro r hr
    obtain ⟨hleft, hright, -⟩ := h r hr
    simp [Rule.fits, Rule.contextKind, hleft, hright, eq_comm]
  unfold tier
  rw [List.filter_congr hfits]
  by_cases hkind : kind = .free
  · simp [hkind]
  · simp [hkind]

/-- No plain rule has a weight, so there is no lot. -/
theorem weightedCandidates_of_plain (h : ∀ r ∈ rules, r.Plain) (s : Symbol Float) :
    weightedCandidates s rules = .ok [] := by
  induction rules with
  | nil => rfl
  | cons r rules ih =>
    have hfixed : r.isStochastic = false := by
      rw [Rule.isStochastic, (h r List.mem_cons_self).weight]
      rfl
    rw [weightedCandidates, hfixed, if_neg Bool.false_ne_true]
    exact ih fun q hq => h q (List.mem_cons_of_mem r hq)

/-- The selection of a rule that was found, or not. -/
def Selection.ofFound : Option Rule → Selection
  | none => .keep
  | some r => .fixed r

/-- The choice in the tier of plain rules is the search for one without weight. -/
theorem selectInTier_of_plain (h : ∀ r ∈ rules, r.Plain) (s : Symbol Float) (g : σ) :
    selectInTier s rules g = (firstFixed s rules).map fun found => (.ofFound found, g) := by
  unfold selectInTier
  rw [weightedCandidates_of_plain h]
  cases firstFixed s rules with
  | error e => rfl
  | ok found => cases found <;> rfl

/-- **The choice among plain rules** takes the first that accepts. It looks neither at the neighbours
nor at the source. -/
theorem select_eq_of_plain (h : ∀ r ∈ rules, r.Plain) (s : Symbol Float) (ctx : Neighbours) (g : σ) :
    select s rules ctx g = (firstFixed s rules).map fun found => (.ofFound found, g) := by
  have hempty : selectInTier s [] g = .ok (.keep, g) := rfl
  unfold select ContextKind.all
  -- the three tiers with context are empty, so the choice falls to the last one
  simp only [selectInTiers, tier_of_plain h, reduceCtorEq, if_false, if_true, hempty,
    selectInTier_of_plain h, ok_bind]
  cases firstFixed s rules with
  | error e => rfl
  | ok found => cases found <;> rfl

/-- A rule that is found accepts the symbol, so it has as many parameters. -/
theorem matchesArity_of_firstFixed {s : Symbol Float} {r : Rule}
    (h : firstFixed s rules = .ok (some r)) : r.matchesArity s = true := by
  induction rules with
  | nil => simp [firstFixed] at h
  | cons q rules ih =>
    rw [firstFixed] at h
    split at h
    · -- a rule with a weight is passed over
      exact ih h
    · obtain ⟨accepts, haccepts, h⟩ := bind_eq_ok_iff.1 h
      cases accepts with
      | false => exact ih h
      | true =>
        obtain rfl : q = r := Option.some.inj (Except.ok.inj h)
        -- the rule found is the first that accepts, and to accept it compares the arities
        unfold Rule.accepts at haccepts
        split at haccepts
        · next harity => exact harity
        · simp at haccepts

end Choice

namespace Grammar

/-! ### Substitution -/

/-- **Image** of a symbol: the successor of the first of its rules that accepts it, or the symbol. -/
def image (gr : Grammar) (s : Symbol Float) : Except EvalError Word := do
  match ← firstFixed s (gr.rulesFor s.name) with
  | none => return [s]
  | some r => r.expand s

/-- **Substitution.** The images of the symbols from a position on, one after the other. -/
def substituteFrom (gr : Grammar) (position : Nat) : Word → Except StepError Word
  | [] => .ok []
  | s :: rest => do
    let out ← (gr.image s).mapError (.noValue s position)
    return out ++ (← gr.substituteFrom (position + 1) rest)

/-- As many substitutions as `depth` says. -/
def develop (gr : Grammar) (w : Word) : Nat → Except StepError Word
  | 0 => .ok w
  | depth + 1 => do gr.develop (← gr.substituteFrom 0 w) depth

section Plain

variable {gr : Grammar} {σ : Type} [Draws σ]

/-- What takes the place of a symbol is its image, and the source stays as it was, also where the image
has no value. -/
theorem attemptSymbol_of_plain (h : gr.Plain) (ctx : Neighbours) (position : Nat) (s : Symbol Float)
    (g : σ) :
    gr.attemptSymbol ctx position s g = ((gr.image s).mapError (.noValue s position), g) := by
  -- the rules of the symbol are plain, so neither the neighbours nor the source are looked at
  have hrules : ∀ r ∈ gr.rulesFor s.name, r.Plain := fun r hr => h r (mem_rules_of_mem_rulesFor hr)
  unfold image
  rw [attemptSymbol_eq, select_eq_of_plain hrules]
  cases hfound : firstFixed s (gr.rulesFor s.name) with
  | error e => rfl
  | ok found =>
    cases found with
    -- no rule applies, and the symbol is its own image
    | none => rfl
    | some r =>
      -- the rule applies, so its parameters are as many as those of the symbol
      have hproduce : r.produce s = (r.expand s).mapError .eval := by
        rw [Rule.produce, if_pos (matchesArity_of_firstFixed hfound)]
      change ((r.produce s).mapError (StepError.ofProduce s position), g) =
        ((r.expand s).mapError (StepError.noValue s position), g)
      rw [hproduce]
      cases r.expand s <;> rfl

/-- **A step is a substitution**, and leaves the source as it was. -/
theorem attemptFrom_of_plain (h : gr.Plain) (left : Option String) (position : Nat) (w : Word)
    (g : σ) : gr.attemptFrom left position w g = (gr.substituteFrom position w, g) := by
  -- the neighbour on the left changes along the word, so it is general in the induction
  induction w generalizing left position with
  | nil => rfl
  | cons s w ih =>
    simp only [attemptFrom, substituteFrom, attemptSymbol_of_plain h]
    cases (gr.image s).mapError (StepError.noValue s position) with
    | error e => rfl
    | ok out =>
      -- the source is handed on as it was to the symbols behind
      simp only [ih]
      cases gr.substituteFrom (position + 1) w <;> rfl

/-- **A derivation is a number of substitutions**, and leaves the source as it was, whether it succeeds or
fails. -/
theorem course_of_plain (h : gr.Plain) (w : Word) (depth : Nat) (g : σ) :
    gr.course w depth g = (gr.develop w depth, g) := by
  induction depth generalizing w with
  | zero => rfl
  | succ depth ih =>
    rw [course_succ, attempt, attemptFrom_of_plain h, develop]
    cases gr.substituteFrom 0 w with
    | error e => rfl
    | ok out => exact ih out

end Plain

/-! ### Substitution and the parts of a word -/

section Append

variable {gr : Grammar} {u v w out : Word} {position position' : Nat}

/-- A substitution succeeds if the first symbol has an image and the rest can be substituted. -/
theorem substituteFrom_cons_eq_ok_iff {s : Symbol Float} :
    gr.substituteFrom position (s :: w) = .ok out ↔
      ∃ a b, gr.image s = .ok a ∧ gr.substituteFrom (position + 1) w = .ok b ∧ out = a ++ b := by
  simp only [substituteFrom, bind_eq_ok_iff, mapError_eq_ok_iff, pure_eq_ok, Except.ok.injEq,
    eq_comm (b := out)]
  constructor
  · rintro ⟨a, ha, b, hb, rfl⟩
    exact ⟨a, b, ha, hb, rfl⟩
  · rintro ⟨a, b, ha, hb, rfl⟩
    exact ⟨a, ha, b, hb, rfl⟩

/-- Whether a substitution succeeds, and what it gives, does not depend on the position. -/
theorem substituteFrom_eq_ok_iff :
    gr.substituteFrom position w = .ok out ↔ gr.substituteFrom position' w = .ok out := by
  -- the position only counts up; it shows in errors, of which nothing is said here
  induction w generalizing position position' out with
  | nil => exact Iff.rfl
  | cons s w ih =>
    simp only [substituteFrom_cons_eq_ok_iff]
    constructor
    · rintro ⟨a, b, ha, hb, rfl⟩
      exact ⟨a, b, ha, ih.1 hb, rfl⟩
    · rintro ⟨a, b, ha, hb, rfl⟩
      exact ⟨a, b, ha, ih.1 hb, rfl⟩

/-- **The parts of a word** are substituted by themselves. -/
theorem substituteFrom_append_eq_ok_iff :
    gr.substituteFrom position (u ++ v) = .ok out ↔
      ∃ a b, gr.substituteFrom position u = .ok a ∧ gr.substituteFrom position v = .ok b ∧
        out = a ++ b := by
  induction u generalizing position out with
  | nil => simp [substituteFrom]
  | cons s u ih =>
    simp only [List.cons_append, substituteFrom_cons_eq_ok_iff, ih]
    constructor
    · -- the symbol goes to the first part, which is then substituted from the next position on
      rintro ⟨a, -, ha, ⟨b, c, hb, hc, rfl⟩, rfl⟩
      exact ⟨a ++ b, c, ⟨a, b, ha, hb, rfl⟩, substituteFrom_eq_ok_iff.1 hc,
        (List.append_assoc a b c).symm⟩
    · -- both parts are substituted from their own start, which is as good as any other
      rintro ⟨-, c, ⟨a, b, ha, hb, rfl⟩, hc, rfl⟩
      exact ⟨a, b ++ c, ha, ⟨b, c, hb, substituteFrom_eq_ok_iff.1 hc, rfl⟩, List.append_assoc a b c⟩

/-- The parts of a word go on by themselves. One that fails ends the whole, at whatever depth. -/
theorem develop_append_eq_ok_iff {depth : Nat} :
    gr.develop (u ++ v) depth = .ok out ↔
      ∃ a b, gr.develop u depth = .ok a ∧ gr.develop v depth = .ok b ∧ out = a ++ b := by
  -- the words are general, since the first substitution leads to other ones
  induction depth generalizing u v out with
  | zero => simp [Grammar.develop, eq_comm]
  | succ depth ih =>
    simp only [Grammar.develop, bind_eq_ok_iff, substituteFrom_append_eq_ok_iff]
    constructor
    · -- the whole is substituted in two parts, which go on by themselves
      rintro ⟨-, ⟨u', v', hu, hv, rfl⟩, h⟩
      obtain ⟨a, b, ha, hb, rfl⟩ := ih.1 h
      exact ⟨a, b, ⟨u', hu, ha⟩, ⟨v', hv, hb⟩, rfl⟩
    · -- both parts are substituted, and so their images one after the other go on as a whole
      rintro ⟨a, b, ⟨u', hu, ha⟩, ⟨v', hv, hb⟩, rfl⟩
      exact ⟨u' ++ v', ⟨u', v', hu, hv, rfl⟩, ih.2 ⟨a, b, ha, hb, rfl⟩⟩

end Append

/-! ### Derivation -/

variable {gr : Grammar} {σ τ : Type} [Draws σ] [Draws τ]

/-- A derivation by plain rules is a number of substitutions, from whatever source. -/
theorem iterate_eq_develop (h : gr.Plain) (w : Word) {depth : Int} (hdepth : 0 ≤ depth) (g : σ) :
    gr.iterate (some w) depth g =
      ((gr.develop w depth.toNat).map fun out => (out, g)).mapError .step := by
  rw [iterate_eq_course gr w hdepth, course_of_plain h]
  rfl

/-- A derivation succeeds as its substitutions do, with the source that it was given. -/
theorem iterate_eq_ok_iff (h : gr.Plain) {w out : Word} {depth : Int} (hdepth : 0 ≤ depth)
    {g g' : σ} :
    gr.iterate (some w) depth g = .ok (out, g') ↔ gr.develop w depth.toNat = .ok out ∧ g' = g := by
  rw [iterate_eq_develop h w hdepth, mapError_eq_ok_iff]
  cases gr.develop w depth.toNat with
  | error e =>
    constructor
    · intro h
      cases h
    · rintro ⟨⟨⟩, -⟩
  | ok out' =>
    change Except.ok (out', g) = Except.ok (out, g') ↔ _
    simp [eq_comm]

/-- **Derivation is a homomorphism** where no rule has a context or a weight. A word is derived, to any
depth, exactly if both of its parts are, and to the derived parts one after the other. The source is
left as it was, whether the derivation succeeds or fails on its course, and what a derivation comes to,
a word or an error, is the same for every source. -/
theorem iterate_append (h : gr.Plain) (u v : Word) {depth : Int} (hdepth : 0 ≤ depth) (g : σ)
    (g' : τ) :
    ((∃ p, gr.iterate (some (u ++ v)) depth g = .ok p) ↔
      (∃ p, gr.iterate (some u) depth g = .ok p) ∧ ∃ p, gr.iterate (some v) depth g = .ok p) ∧
    (∀ a b ga gb, gr.iterate (some u) depth g = .ok (a, ga) →
      gr.iterate (some v) depth g = .ok (b, gb) →
      gr.iterate (some (u ++ v)) depth g = .ok (a ++ b, g)) ∧
    (∀ w out gw, gr.iterate (some w) depth g = .ok (out, gw) → gw = g) ∧
    (∀ w, (gr.iterate (some w) depth g).map Prod.fst =
      (gr.iterate (some w) depth g').map Prod.fst) ∧
    ∀ w, gr.iterate (some w) depth g = (settled (gr.course w depth.toNat g)).mapError .step ∧
      (gr.course w depth.toNat g).2 = g := by
  refine ⟨?_, ?_, ?_, ?_, fun w => ⟨gr.iterate_eq_course w hdepth g, ?_⟩⟩
  · -- the source plays no part in whether the parts succeed, so only the substitutions are compared
    simp only [Prod.exists, iterate_eq_ok_iff h hdepth, develop_append_eq_ok_iff]
    constructor
    · rintro ⟨-, -, ⟨a, b, ha, hb, rfl⟩, -⟩
      exact ⟨⟨a, g, ha, rfl⟩, ⟨b, g, hb, rfl⟩⟩
    · rintro ⟨⟨a, -, ha, -⟩, ⟨b, -, hb, -⟩⟩
      exact ⟨a ++ b, g, ⟨a, b, ha, hb, rfl⟩, rfl⟩
  · intro a b ga gb ha hb
    rw [iterate_eq_ok_iff h hdepth] at ha hb ⊢
    exact ⟨develop_append_eq_ok_iff.2 ⟨a, b, ha.1, hb.1, rfl⟩, rfl⟩
  · intro w out gw hw
    exact ((iterate_eq_ok_iff h hdepth).1 hw).2
  · -- what a derivation comes to is what its substitutions come to, for each of the sources
    intro w
    rw [iterate_eq_develop h w hdepth, iterate_eq_develop h w hdepth]
    cases gr.develop w depth.toNat <;> rfl
  · rw [course_of_plain h]

/-- A tip that counts down and a leaf derive side by side, from a replay and from a counted one. -/
theorem iterate_append_tip :
    let grow : Rule :=
      { predecessor := "A", params := ["x"], condition := some (.bin .gt (.var "x") (.num 0.0))
        successor := [⟨"A", [.bin .sub (.var "x") (.num 1.0)], false⟩, ⟨"B", [], false⟩] }
    let gr : Grammar := { groups := [("A", [grow])] }
    let leaf : Symbol Float := ⟨"B", [], false⟩
    let g : Replay := ⟨#[0.5], 0⟩
    gr.Plain ∧
      gr.iterate (some ([⟨"A", [2.0], false⟩] ++ [leaf])) 2 g =
        .ok ([⟨"A", [0.0], false⟩, leaf, leaf] ++ [leaf], g) ∧
      (gr.iterate (some [⟨"A", [2.0], false⟩]) 2 g).map Prod.fst =
        (gr.iterate (some [⟨"A", [2.0], false⟩]) 2 (⟨g, 0⟩ : Counted Replay)).map Prod.fst := by
  intro grow gr leaf g
  have hplain : gr.Plain := by
    intro r hr
    obtain rfl : r = grow := by simpa [gr, rules] using hr
    exact ⟨rfl, rfl, rfl⟩
  have htip : gr.iterate (some [⟨"A", [2.0], false⟩]) 2 g =
      .ok ([⟨"A", [0.0], false⟩, leaf, leaf], g) := rfl
  have hleaf : gr.iterate (some [leaf]) 2 g = .ok ([leaf], g) := rfl
  have hdepth : (0 : Int) ≤ 2 := by decide
  have h := iterate_append hplain [⟨"A", [2.0], false⟩] [leaf] hdepth g (⟨g, 0⟩ : Counted Replay)
  exact ⟨hplain, h.2.1 _ _ g g htip hleaf, h.2.2.2.1 [⟨"A", [2.0], false⟩]⟩

end Grammar

end Arbor
