import Arbor.Proofs.Derivation.Homomorphism
import Mathlib.Data.Finsupp.Multiset
import Mathlib.Data.Finsupp.Weight
import Mathlib.LinearAlgebra.Finsupp.LinearCombination

/-!
# Growth

How many symbols of each name a word has after some steps is settled by how many of each it has before,
where rules and words are simple: no context, condition, weight or parameter anywhere. The counts then
change by one linear map with every step (`Grammar.growth`), which sends a single symbol to what its
first rule puts in its place. So the counts at any depth are a power of that map, and the order of the
symbols does not matter for them (`Grammar.count_iterate`). This holds of rules that erase a symbol as
of any others; rules after the first are never used, and a symbol without rules is kept.

A derivation by plain rules is a number of substitutions (`Grammar.iterate_eq_develop`). With simple
rules every symbol has an image, which depends on its name alone up to a patch mark
(`image_of_simple`), and counts are additive along a word (`tally_flatMap`).
-/

namespace Arbor

open Outcome

/-! ### Simple rules and words -/

/-- **Simple rules** are plain, have neither a condition nor parameters, and put symbols without
parameters. -/
structure Rule.Simple (r : Rule) : Prop extends r.Plain where
  condition : r.condition = none
  params : r.params = []
  successor : ∀ t ∈ r.successor, t.args = []

instance (r : Rule) : Decidable r.Simple :=
  decidable_of_iff
    ((r.left = none ∧ r.right = none ∧ r.weight = none) ∧ r.condition = none ∧ r.params = [] ∧
      ∀ t ∈ r.successor, t.args = [])
    ⟨fun ⟨⟨hleft, hright, hweight⟩, hcondition, hparams, hsuccessor⟩ =>
        ⟨⟨hleft, hright, hweight⟩, hcondition, hparams, hsuccessor⟩,
      fun h => ⟨⟨h.left, h.right, h.weight⟩, h.condition, h.params, h.successor⟩⟩

/-- **Simple grammars** have simple rules only. -/
def Grammar.Simple (gr : Grammar) : Prop := ∀ r ∈ gr.rules, r.Simple

instance (gr : Grammar) : Decidable gr.Simple := inferInstanceAs (Decidable (∀ r ∈ gr.rules, _))

/-- **Simple words** have symbols without parameters only. -/
def Word.Simple (w : Word) : Prop := ∀ s ∈ w, s.params = []

instance (w : Word) : Decidable w.Simple := inferInstanceAs (Decidable (∀ s ∈ w, _))

/-- Simple grammars are plain: their rules neither look at neighbours nor leave anything to
chance. -/
theorem Grammar.Simple.plain {gr : Grammar} (h : gr.Simple) : gr.Plain := fun r hr => (h r hr).toPlain

/-- The symbol that a template without arguments stands for. -/
def Template.symbol (t : Template) : Symbol Float := ⟨t.name, [], t.patch⟩

/-- A template without arguments stands for one symbol, in whatever environment. -/
theorem Template.instantiate_of_args {t : Template} (h : t.args = []) (env : Env) :
    t.instantiate env = .ok t.symbol := by
  rw [instantiate, h]
  rfl

/-- A simple rule takes every symbol without parameters. -/
theorem Rule.Simple.accepts {r : Rule} (h : r.Simple) {s : Symbol Float} (hs : s.params = []) :
    r.accepts s = .ok true := by
  -- the arities agree, since there are no parameters on either side
  have harity : r.matchesArity s = true := by simp [matchesArity, Symbol.arity, h.params, hs]
  rw [Rule.accepts, if_pos harity, holds, h.condition]

/-- A simple rule puts its templates as symbols, with nothing to evaluate. -/
theorem Rule.Simple.expand {r : Rule} (h : r.Simple) (s : Symbol Float) :
    r.expand s = .ok (r.successor.map Template.symbol) :=
  mapM_eq_ok_of_forall fun t ht => t.instantiate_of_args (h.successor t ht) (r.env s)

/-- Among simple rules the first one is used, so those after it never are. -/
theorem firstFixed_of_simple {rules : List Rule} (h : ∀ r ∈ rules, r.Simple) {s : Symbol Float}
    (hs : s.params = []) : firstFixed s rules = .ok rules.head? := by
  cases rules with
  | nil => rfl
  | cons r rules =>
    have hr := h r List.mem_cons_self
    -- a rule without weight is fixed, and it accepts the symbol; so the search ends with it
    have hfixed : r.isStochastic = false := by
      rw [Rule.isStochastic, hr.weight]
      rfl
    rw [firstFixed, hfixed, if_neg Bool.false_ne_true, hr.accepts hs]
    rfl

/-! ### Counts -/

/-- How often each name occurs. -/
noncomputable def tally (names : List String) : String →₀ ℕ :=
  Multiset.toFinsupp (names : Multiset String)

/-- Each count of a tally is the number of occurrences of the name. -/
theorem tally_apply (names : List String) (name : String) : tally names name = names.count name := by
  rw [tally, Multiset.toFinsupp_apply, Multiset.coe_count]

/-- Counts of two rows are added name by name. -/
theorem tally_append (names others : List String) :
    tally (names ++ others) = tally names + tally others := by
  rw [tally, ← Multiset.coe_add, map_add]
  rfl

theorem tally_singleton (name : String) : tally [name] = Finsupp.single name 1 := by
  rw [tally, Multiset.coe_singleton, Multiset.toFinsupp_singleton]

/-- A row of names is as long as all its counts together. -/
theorem degree_tally (names : List String) : (tally names).degree = names.length := by
  induction names with
  | nil => simp [tally]
  | cons name names ih =>
    -- one name more is one symbol more and a degree higher by one
    rw [← List.singleton_append, tally_append, map_add, ih, tally_singleton, Finsupp.degree_single,
      List.length_append, List.length_singleton]

namespace Grammar

/-- **Image** of a symbol under simple rules: the successor of the first rule for its name, or the
symbol itself. -/
def simpleImage (gr : Grammar) (s : Symbol Float) : Word :=
  match (gr.rulesFor s.name).head? with
  | none => [s]
  | some r => r.successor.map Template.symbol

/-- What takes the place of a name under simple rules. -/
def namesFor (gr : Grammar) (name : String) : List String :=
  match (gr.rulesFor name).head? with
  | none => [name]
  | some r => r.successor.map Template.name

/-- **Growth** of the counts with one step: the linear map that sends a single name to the counts of
what takes its place. -/
noncomputable def growth (gr : Grammar) : (String →₀ ℕ) →ₗ[ℕ] (String →₀ ℕ) :=
  Finsupp.linearCombination ℕ fun name => tally (gr.namesFor name)

/-- A single name grows to the counts of what takes its place. -/
theorem growth_single (gr : Grammar) (name : String) :
    gr.growth (Finsupp.single name 1) = tally (gr.namesFor name) := by
  rw [growth, Finsupp.linearCombination_single, one_smul]

variable {gr : Grammar} {w out : Word}

/-! ### One step -/

/-- The image of a symbol without parameters is computed with nothing left to evaluate. -/
theorem image_of_simple (h : gr.Simple) {s : Symbol Float} (hs : s.params = []) :
    gr.image s = .ok (gr.simpleImage s) := by
  have hrules : ∀ r ∈ gr.rulesFor s.name, r.Simple := fun r hr => h r (mem_rules_of_mem_rulesFor hr)
  rw [image, firstFixed_of_simple hrules hs, simpleImage]
  cases hhead : (gr.rulesFor s.name).head? with
  -- a symbol without rules is kept, and so it is its own image
  | none => rfl
  | some r => exact (hrules r (List.mem_of_mem_head? hhead)).expand s

/-- Simple rules put symbols without parameters in place of such symbols. -/
theorem params_of_mem_simpleImage {s t : Symbol Float} (hs : s.params = [])
    (ht : t ∈ gr.simpleImage s) : t.params = [] := by
  unfold simpleImage at ht
  split at ht
  · rw [List.mem_singleton.1 ht, hs]
  · obtain ⟨template, -, rfl⟩ := List.mem_map.1 ht
    rfl

/-- Of the image only the names are counted, and these depend on nothing but the name of the
symbol. -/
theorem map_name_simpleImage (s : Symbol Float) :
    (gr.simpleImage s).map Symbol.name = gr.namesFor s.name := by
  unfold simpleImage namesFor
  split
  · rfl
  · rw [List.map_map]
    rfl

/-- A substitution of simple rules succeeds on simple words, and leads to simple words. -/
theorem substituteFrom_of_simple (h : gr.Simple) (hw : w.Simple) (position : Nat) :
    gr.substituteFrom position w = .ok (w.flatMap gr.simpleImage) := by
  induction w generalizing position with
  | nil => rfl
  | cons s w ih =>
    obtain ⟨hs, hw⟩ := List.forall_mem_cons.1 hw
    exact substituteFrom_cons_eq_ok_iff.2 ⟨_, _, image_of_simple h hs, ih hw (position + 1), rfl⟩

/-- A simple word has simple images only, so the next step starts as this one did. -/
theorem simple_flatMap (hw : w.Simple) : Word.Simple (w.flatMap gr.simpleImage) := by
  intro t ht
  obtain ⟨s, hs, ht⟩ := List.mem_flatMap.1 ht
  exact params_of_mem_simpleImage (hw s hs) ht

/-- **The counts after a step** are the growth of those before it. -/
theorem tally_flatMap (gr : Grammar) (w : Word) :
    tally ((w.flatMap gr.simpleImage).map Symbol.name) = gr.growth (tally (w.map Symbol.name)) := by
  induction w with
  | nil => simp [tally]
  | cons s w ih =>
    -- the first symbol grows on its own, and a linear map takes sums to sums
    calc tally (((s :: w).flatMap gr.simpleImage).map Symbol.name)
      _ = tally (gr.namesFor s.name) + gr.growth (tally (w.map Symbol.name)) := by
        rw [List.flatMap_cons, List.map_append, tally_append, map_name_simpleImage, ih]
      _ = gr.growth (tally ([s.name] ++ w.map Symbol.name)) := by
        rw [tally_append, map_add, tally_singleton, growth_single]

/-! ### All steps -/

/-- **The counts after some steps.** -/
theorem develop_of_simple (h : gr.Simple) (hw : w.Simple) (depth : Nat) :
    ∃ out, gr.develop w depth = .ok out ∧
      tally (out.map Symbol.name) = (gr.growth ^ depth) (tally (w.map Symbol.name)) := by
  -- the word is general: the first step leads to another simple word
  induction depth generalizing w with
  | zero => exact ⟨w, rfl, by rw [pow_zero, Module.End.one_apply]⟩
  | succ depth ih =>
    obtain ⟨out, hout, htally⟩ := ih (simple_flatMap hw)
    refine ⟨out, ?_, ?_⟩
    · rw [develop, substituteFrom_of_simple h hw]
      exact hout
    · -- the growth of the first step is applied before the growth of the others
      rw [htally, tally_flatMap, pow_succ, Module.End.mul_apply]

variable {σ : Type} [Draws σ]

/-- A derivation by simple rules succeeds, draws nothing, and has the counts that the growth
says. -/
theorem iterate_of_simple (h : gr.Simple) (hw : w.Simple) {depth : Int} (hdepth : 0 ≤ depth) (g : σ) :
    ∃ out, gr.iterate (some w) depth g = .ok (out, g) ∧
      tally (out.map Symbol.name) = (gr.growth ^ depth.toNat) (tally (w.map Symbol.name)) := by
  obtain ⟨out, hout, htally⟩ := develop_of_simple h hw depth.toNat
  exact ⟨out, (iterate_eq_ok_iff h.plain hdepth).2 ⟨hout, rfl⟩, htally⟩

/-- **Growth.** With simple rules every simple word can be derived to any depth. How often each name
occurs in what comes out is got from the counts of the word by as many applications of one linear map,
and all these counts together are the length. So two words with the same counts, such as the same
symbols in another order, come to words of the same length. -/
theorem count_iterate (h : gr.Simple) {depth : Int} (hdepth : 0 ≤ depth) (g : σ) :
    (∀ w : Word, w.Simple → ∃ out, gr.iterate (some w) depth g = .ok (out, g) ∧
      (∀ name, (out.map Symbol.name).count name =
        (gr.growth ^ depth.toNat) (tally (w.map Symbol.name)) name) ∧
      out.length = ((gr.growth ^ depth.toNat) (tally (w.map Symbol.name))).degree) ∧
    ∀ (w w' out out' : Word) (gw gw' : σ), w.Simple → w'.Simple →
      (∀ name, (w.map Symbol.name).count name = (w'.map Symbol.name).count name) →
      gr.iterate (some w) depth g = .ok (out, gw) →
      gr.iterate (some w') depth g = .ok (out', gw') → out.length = out'.length := by
  -- the length of a word is the sum of its counts
  have hlength : ∀ out : Word, (tally (out.map Symbol.name)).degree = out.length := fun out => by
    rw [degree_tally, List.length_map]
  constructor
  · intro w hw
    obtain ⟨out, hout, htally⟩ := iterate_of_simple h hw hdepth g
    refine ⟨out, hout, fun name => ?_, ?_⟩
    · rw [← tally_apply, htally]
    · rw [← htally, hlength]
  · intro w w' out out' gw gw' hw hw' hcounts hout hout'
    -- the two words differ in the order of their symbols at most, and counts do not see it
    have hsame : tally (w.map Symbol.name) = tally (w'.map Symbol.name) := by
      ext name
      rw [tally_apply, tally_apply, hcounts name]
    obtain ⟨out₁, hout₁, htally₁⟩ := iterate_of_simple h hw hdepth g
    obtain ⟨out₂, hout₂, htally₂⟩ := iterate_of_simple h hw' hdepth g
    -- each derivation has one outcome, so the words are those that the growth speaks of
    obtain rfl : out₁ = out := congrArg Prod.fst (Except.ok.inj (hout₁.symm.trans hout))
    obtain rfl : out₂ = out' := congrArg Prod.fst (Except.ok.inj (hout₂.symm.trans hout'))
    rw [← hlength, ← hlength, htally₁, htally₂, hsame]

/-- Algae with a second rule that is never used, a leaf that falls off, and a symbol without a rule; and
the same symbols in another order. -/
theorem count_iterate_algae :
    let plain (name : String) : Symbol Float := ⟨name, [], false⟩
    let gr : Grammar :=
      { groups :=
          [("A", [{ predecessor := "A", successor := [⟨"A", [], false⟩, ⟨"B", [], true⟩] },
              { predecessor := "A" }]),
            ("B", [{ predecessor := "B", successor := [⟨"A", [], false⟩] }]),
            ("L", [{ predecessor := "L" }])] }
    let w : Word := [plain "A", plain "L", plain "+", plain "B"]
    let w' : Word := [plain "B", plain "A", plain "+", plain "L"]
    let g : Replay := ⟨#[0.5], 0⟩
    gr.Simple ∧ w.Simple ∧
      (gr.growth ^ 4) (tally (w.map Symbol.name)) "A" = 8 ∧
      ((gr.growth ^ 4) (tally (w.map Symbol.name))).degree = 14 ∧
      ∃ out out', gr.iterate (some w) 4 g = .ok (out, g) ∧ gr.iterate (some w') 4 g = .ok (out', g) ∧
        out.length = out'.length := by
  intro plain gr w w' g
  have hgr : gr.Simple := by decide +kernel
  have hw : w.Simple := by decide +kernel
  have hw' : w'.Simple := by decide +kernel
  have hdepth : (0 : Int) ≤ 4 := by decide
  obtain ⟨hderive, hlength⟩ := count_iterate hgr hdepth g
  obtain ⟨out, hout, hcount, hdegree⟩ := hderive w hw
  obtain ⟨out', hout', -, -⟩ := hderive w' hw'
  -- the word that comes out, from which the two counts are read off
  have hnames : (gr.iterate (some w) 4 g).toOption.map (fun p => p.1.map Symbol.name) =
      some ["A", "B", "A", "A", "B", "A", "B", "A", "+", "A", "B", "A", "A", "B"] := by decide +kernel
  rw [hout] at hnames
  have hnames : out.map Symbol.name = _ := Option.some.inj hnames
  have hcounts : ∀ name, (w.map Symbol.name).count name = (w'.map Symbol.name).count name :=
    List.perm_iff_count.1 (by decide +kernel)
  refine ⟨hgr, hw, ?_, ?_, out, out', hout, hout', ?_⟩
  · have h := hcount "A"
    rw [hnames] at h
    exact h.symm
  · have h : out.length = 14 := (List.length_map Symbol.name).symm.trans (congrArg List.length hnames)
    exact hdegree.symm.trans h
  · exact hlength w w' out out' g g hw hw' hcounts hout hout'

end Grammar

end Arbor
