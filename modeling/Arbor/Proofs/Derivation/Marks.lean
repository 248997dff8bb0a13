import Mathlib.Data.List.Forall2
import Arbor.Proofs.Derivation.Counterpart
import Arbor.Proofs.Derivation.Depth
import Arbor.Proofs.Derivation.Homomorphism

/-!
# Patch marks and derivation

A patch mark is for drawing. Whether a rule fits a symbol, what it makes of it and how many draws that
takes do not depend on the mark, neither of the symbol nor of its neighbours. So two derivations whose
start words differ in marks only go side by side for ever (`Grammar.iterate_of_sameButMarks`): both
succeed or both fail, they make the same draws, and their words differ in marks only.

In which marks these words differ is told by the origin of each symbol (`Grammar.origins`). A symbol
that some step made from a template of a rule has the mark of that template, in both words. A symbol
that every step has copied stands in both start words at one place, and has the mark it had there.

The proof runs both derivations at once. A rule reads of a symbol its parameters only
(`Rule.accepts_congr`), so both steps choose the same rules (`select_congr`), and give each symbol the
same origin. The words with these origins are `Twins`, a step keeps twins (`Grammar.attempt_twins`), and
therefore so does every number of steps (`Grammar.course_twins`).
-/

namespace Arbor

open Outcome

/-- The same symbol, but for the mark. -/
structure Symbol.SameButMark (s t : Symbol Float) : Prop where
  name : s.name = t.name
  params : s.params = t.params

/-- The same failure at the same position, but for the mark of the symbol there. -/
inductive StepError.SameButMark : StepError → StepError → Prop
  | noValue {s t : Symbol Float} (symbol : s.SameButMark t) (position : Nat) (cause : EvalError) :
      SameButMark (.noValue s position cause) (.noValue t position cause)
  | arity {s t : Symbol Float} (symbol : s.SameButMark t) (rule : Rule) :
      SameButMark (.arity ⟨rule, s⟩) (.arity ⟨rule, t⟩)

/-- The same failure of a derivation, but for a mark. -/
inductive DeriveError.SameButMark : DeriveError → DeriveError → Prop
  | negativeDepth (depth : Int) : SameButMark (.negativeDepth depth) (.negativeDepth depth)
  | step {d e : StepError} (cause : d.SameButMark e) : SameButMark (.step d) (.step e)

/-! ### Rules do not see marks -/

section Rules

variable {s t : Symbol Float}

/-- A rule reads the parameters of a symbol, and nothing else, to accept it. -/
theorem Rule.accepts_congr (h : s.params = t.params) (r : Rule) : r.accepts s = r.accepts t := by
  unfold accepts matchesArity Symbol.arity holds env bindings
  rw [h]

/-- A rule reads nothing else to put its successor together. -/
theorem Rule.expand_congr (h : s.params = t.params) (r : Rule) : r.expand s = r.expand t := by
  simp only [expand, env, bindings, h]

end Rules

/-! ### Origins -/

/-- **Origin** of a symbol in a derived word. -/
inductive Origin
  /-- Every step has copied the symbol, from this place in the start word. -/
  | kept (place : Nat)
  /-- A step has made the symbol by a rule, from this template of its successor, and all later ones
  have copied it. -/
  | made (r : Rule) (t : Template)

/-- The origins of what takes the place of a symbol of origin `o`. -/
def Selection.origins (o : Origin) (chosen : Selection) : List Origin :=
  match chosen.rule? with
  | none => [o]
  | some r => r.successor.map (.made r)

namespace Grammar

variable {σ : Type} [Draws σ]

/-- The origins of what a step puts in the place of the rest of a word, whose symbols have the origins
`os`. -/
def originsFrom (gr : Grammar) (left : Option String) : Word → List Origin → σ → List Origin
  | s :: rest, o :: os, g =>
    let ctx : Neighbours := { left, right := rest.head?.map Symbol.name }
    match select s (gr.rulesFor s.name) ctx g with
    | .ok (chosen, g) => chosen.origins o ++ gr.originsFrom (some s.name) rest os g
    | .error _ => []
  | _, _, _ => []

/-- The origins after a number of steps from a word whose symbols have the origins `os`. -/
def originsAfter (gr : Grammar) : Word → List Origin → Nat → σ → List Origin
  | _, os, 0, _ => os
  | w, os, depth + 1, g =>
    match gr.step w g with
    | .ok (out, g') => gr.originsAfter out (gr.originsFrom none w os g) depth g'
    | .error _ => []

/-- **Origins** of the symbols of a derived word. -/
def origins (gr : Grammar) (w : Word) (depth : Nat) (g : σ) : List Origin :=
  gr.originsAfter w ((List.range w.length).map .kept) depth g

/-! ### Twins -/

/-- **Twin symbols** of one origin, in words derived from `u` and `v`. -/
inductive Twin (gr : Grammar) (u v : Word) : Origin → Symbol Float → Symbol Float → Prop
  | kept {place : Nat} {s t : Symbol Float} (left : u[place]? = some s) (right : v[place]? = some t) :
      Twin gr u v (.kept place) s t
  | made {r : Rule} {t : Template} {s : Symbol Float} (rule : r ∈ gr.rules)
      (template : t ∈ r.successor) (name : s.name = t.name) (mark : s.patch = t.patch) :
      Twin gr u v (.made r t) s s

/-- **Twins.** Two words, twin by twin. -/
inductive Twins (gr : Grammar) (u v : Word) : List Origin → Word → Word → Prop
  | nil : Twins gr u v [] [] []
  | cons {o : Origin} {os : List Origin} {s t : Symbol Float} {a b : Word}
      (head : gr.Twin u v o s t) (tail : Twins gr u v os a b) :
      Twins gr u v (o :: os) (s :: a) (t :: b)

section Twins

variable {gr : Grammar} {u v a b c d : Word} {o : Origin} {os ps : List Origin} {s t : Symbol Float}

/-- Twins may be put one after the other. -/
theorem Twins.append (h : gr.Twins u v os a b) (h' : gr.Twins u v ps c d) :
    gr.Twins u v (os ++ ps) (a ++ c) (b ++ d) := by
  induction h with
  | nil => exact h'
  | cons head _ ih => exact .cons head ih

/-- Twins are of one length, with an origin for each symbol. -/
theorem Twins.length_eq (h : gr.Twins u v os a b) :
    os.length = a.length ∧ a.length = b.length := by
  induction h with
  | nil => exact ⟨rfl, rfl⟩
  | cons _ _ ih => simp [ih]

/-- At one place twins have symbols of one origin. -/
theorem Twins.exists_twin (h : gr.Twins u v os a b) {i : Nat} (hs : a[i]? = some s)
    (ht : b[i]? = some t) : ∃ o, os[i]? = some o ∧ gr.Twin u v o s t := by
  induction h generalizing i with
  | nil => cases hs
  | @cons o _ _ _ _ _ head _ ih =>
    cases i with
    | zero =>
      obtain rfl := Option.some.inj hs
      obtain rfl := Option.some.inj ht
      exact ⟨o, rfl, head⟩
    | succ i => exact ih hs ht

/-- Twins differ in the mark only, if the words they come from do. -/
theorem Twin.sameButMark (huv : List.Forall₂ Symbol.SameButMark u v) (h : gr.Twin u v o s t) :
    s.SameButMark t := by
  cases h with
  -- a symbol that was made is its own twin
  | made => exact ⟨rfl, rfl⟩
  -- two that were kept stand at one place in the start words, which differ there in the mark only
  | @kept place _ _ left right =>
    obtain ⟨hi, rfl⟩ := List.getElem?_eq_some_iff.1 left
    obtain ⟨hj, rfl⟩ := List.getElem?_eq_some_iff.1 right
    exact huv.get hi hj

/-- The same of whole words. -/
theorem Twins.sameButMark (huv : List.Forall₂ Symbol.SameButMark u v) (h : gr.Twins u v os a b) :
    List.Forall₂ Symbol.SameButMark a b := by
  induction h with
  | nil => exact .nil
  | cons head _ ih => exact .cons (head.sameButMark huv) ih

/-- The start words are twins. -/
theorem twins_start (huv : List.Forall₂ Symbol.SameButMark u v) :
    gr.Twins u v ((List.range u.length).map .kept) u v := by
  -- of the start words, the parts behind some place are twins with the places counted from there
  have hrest : ∀ before before' a b, u = before ++ a → v = before' ++ b →
      before.length = before'.length → List.Forall₂ Symbol.SameButMark a b →
      gr.Twins u v ((List.range' before.length a.length).map .kept) a b := by
    intro before before' a b hu hv hlen hab
    induction hab generalizing before before' with
    | nil => exact .nil
    | @cons s t a b _ _ ih =>
      -- the first symbols stand behind as many others in both words, so at one place
      refine .cons (.kept (s := s) (t := t) (by simp [hu]) (by simp [hv, hlen])) ?_
      have htail := ih (before ++ [s]) (before' ++ [t]) (by simp [hu]) (by simp [hv]) (by simp [hlen])
      rwa [List.length_append] at htail
  rw [List.range_eq_range']
  exact hrest [] [] u v rfl rfl rfl huv

/-- The successor that a rule makes is a twin of itself. -/
theorem twins_expand {r : Rule} (hr : r ∈ gr.rules) {s : Symbol Float} {out : Word}
    (h : r.expand s = .ok out) : gr.Twins u v (r.successor.map (.made r)) out out := by
  -- the induction is on the templates, for any that are in the successor
  have hpart : ∀ (templates : List Template) (out : Word), (∀ t ∈ templates, t ∈ r.successor) →
      templates.mapM (Template.instantiate (r.env s)) = .ok out →
      gr.Twins u v (templates.map (.made r)) out out := by
    intro templates
    induction templates with
    | nil =>
      intro out _ h
      obtain rfl : [] = out := Except.ok.inj h
      exact .nil
    | cons t templates ih =>
      intro out hmem h
      obtain ⟨q, rest, hq, hrest, rfl⟩ := exists_of_mapM_cons h
      -- the symbol is made from the template, with its name and its mark
      obtain ⟨args, -, hq⟩ := bind_eq_ok_iff.1 hq
      obtain rfl := Except.ok.inj hq
      have ht := hmem t List.mem_cons_self
      exact .cons (.made hr ht rfl rfl) (ih rest (fun q hq => hmem q (.tail t hq)) hrest)
  exact hpart r.successor out (fun _ ht => ht) h

end Twins

/-! ### Twins stay twins -/

section Steps

variable {gr : Grammar} {u v : Word}

/-- What takes the places of twins: twins, whose origins follow from the rule that was chosen. -/
theorem replacement_twins {o : Origin} {s t : Symbol Float} {chosen : Selection}
    (huv : List.Forall₂ Symbol.SameButMark u v) (hst : gr.Twin u v o s t)
    (hrule : ∀ r, chosen.rule? = some r → r ∈ gr.rules) (position : Nat) :
    Corresponds StepError.SameButMark (gr.Twins u v (chosen.origins o))
      ((replacement s chosen).mapError (.ofProduce s position))
      ((replacement t chosen).mapError (.ofProduce t position)) := by
  have hsame := hst.sameButMark huv
  unfold replacement Selection.origins
  cases hr : chosen.rule? with
  -- without a rule the two symbols are kept, with the origin that they had
  | none => exact .ok (.cons hst .nil)
  | some r =>
    -- the rule finds as many parameters at both, and makes the same of them
    have harity : r.matchesArity s = r.matchesArity t := by
      unfold Rule.matchesArity Symbol.arity
      rw [hsame.params]
    simp only [Rule.produce, harity, r.expand_congr hsame.params]
    split
    · cases hout : r.expand t with
      | error e => exact .error (.noValue hsame position e)
      | ok out => exact .ok (twins_expand (hrule r hr) hout)
    · exact .error (.arity hsame r)

variable {σ : Type} [Draws σ]

/-- A step over the rests of twins: the symbols of both get the same origins, the source is left at the
same place, and both succeed or both fail. -/
theorem attemptFrom_twins {os : List Origin} {a b : Word}
    (huv : List.Forall₂ Symbol.SameButMark u v) (h : gr.Twins u v os a b) (left : Option String)
    (position : Nat) (g : σ) :
    gr.originsFrom left b os g = gr.originsFrom left a os g ∧
      (gr.attemptFrom left position b g).2 = (gr.attemptFrom left position a g).2 ∧
      Corresponds StepError.SameButMark (gr.Twins u v (gr.originsFrom left a os g))
        (gr.attemptFrom left position a g).1 (gr.attemptFrom left position b g).1 := by
  induction h generalizing left position g with
  | nil => exact ⟨rfl, rfl, .ok .nil⟩
  | @cons o os s t a b hst hab ih =>
    have hsame := hst.sameButMark huv
    -- the next symbols are twins, so the two have the same name on their right
    have hhead : b.head?.map Symbol.name = a.head?.map Symbol.name := by
      cases hab with
      | nil => rfl
      | cons head _ => exact congrArg some (head.sameButMark huv).name.symm
    -- both symbols are between the same names, so the same rule is chosen for both
    have hselect : ∀ rules ctx (g : σ), select t rules ctx g = select s rules ctx g := fun _ =>
      select_congr fun r _ => r.accepts_congr hsame.params.symm
    simp only [originsFrom, attemptFrom, attemptSymbol_eq, ← hsame.name, hhead, hselect]
    cases hchosen : select s (gr.rulesFor s.name) { left, right := a.head?.map Symbol.name } g with
    | error e => exact ⟨rfl, rfl, .error (.noValue hsame position e)⟩
    | ok found =>
      obtain ⟨chosen, g'⟩ := found
      obtain ⟨horigins, hsource, hrest⟩ := ih (some s.name) (position + 1) g'
      have hrule : ∀ r, chosen.rule? = some r → r ∈ gr.rules := fun r hr =>
        -- the chosen rule is one of the grammar
        mem_rules_of_mem_rulesFor (mem_of_select s _ _ hchosen hr).1
      have hmade := replacement_twins huv hst hrule position
      refine ⟨congrArg (chosen.origins o ++ ·) horigins, ?_⟩
      dsimp only
      generalize (replacement s chosen).mapError (StepError.ofProduce s position) = x at hmade ⊢
      generalize (replacement t chosen).mapError (StepError.ofProduce t position) = y at hmade ⊢
      cases hmade with
      -- the draw for the rule has been made on both sides
      | error errors => exact ⟨rfl, .error errors⟩
      | ok hout => exact ⟨hsource, hrest.map fun _ _ => hout.append⟩

/-- **A step** keeps twins. -/
theorem attempt_twins {os : List Origin} {a b : Word} (huv : List.Forall₂ Symbol.SameButMark u v)
    (h : gr.Twins u v os a b) (g : σ) :
    gr.originsFrom none b os g = gr.originsFrom none a os g ∧
      (gr.attempt b g).2 = (gr.attempt a g).2 ∧
      Corresponds StepError.SameButMark (gr.Twins u v (gr.originsFrom none a os g))
        (gr.attempt a g).1 (gr.attempt b g).1 :=
  attemptFrom_twins huv h none 0 g

/-- **A course** keeps twins. -/
theorem course_twins {os : List Origin} {a b : Word} (huv : List.Forall₂ Symbol.SameButMark u v)
    (h : gr.Twins u v os a b) (depth : Nat) (g : σ) :
    gr.originsAfter b os depth g = gr.originsAfter a os depth g ∧
      (gr.course b depth g).2 = (gr.course a depth g).2 ∧
      Corresponds StepError.SameButMark (gr.Twins u v (gr.originsAfter a os depth g))
        (gr.course a depth g).1 (gr.course b depth g).1 := by
  induction depth generalizing os a b g with
  | zero => exact ⟨rfl, rfl, .ok h⟩
  | succ depth ih =>
    -- both first steps succeed or both fail; where they succeed, the rest starts from twins again
    obtain ⟨horigins, hsource, hstep⟩ := attempt_twins huv h g
    simp only [originsAfter, course_succ, step_eq_attempt]
    generalize gr.attempt a g = x at hsource hstep ⊢
    generalize gr.attempt b g = y at hsource hstep ⊢
    obtain ⟨outcome, g'⟩ := x
    obtain ⟨outcome', _⟩ := y
    obtain rfl : _ = g' := hsource
    cases hstep with
    | error errors => exact ⟨rfl, rfl, .error errors⟩
    | ok hout =>
      simp only [settled, Except.map, horigins]
      exact ih hout _

/-- **Marks play no part in derivation.** From words that differ in marks only a derivation succeeds or
fails alike, with the same error but for a mark; it leaves the same source, so it has made as many
draws, also where it fails on its course. The derived words differ in marks only, and at every position
both have a symbol of the same origin: one made from a template of a rule, with the mark of the
template, or one that every step has copied from one place in both start words, with the mark that it
had there. -/
theorem iterate_of_sameButMarks (gr : Grammar) {u v : Word}
    (huv : List.Forall₂ Symbol.SameButMark u v) (depth : Int) (g : σ) :
    ((∃ p, gr.iterate (some u) depth g = .ok p) ↔ ∃ p, gr.iterate (some v) depth g = .ok p) ∧
    (∀ d e, gr.iterate (some u) depth g = .error d → gr.iterate (some v) depth g = .error e →
      d.SameButMark e) ∧
    (∀ (a b : Word) (ga gb : σ), gr.iterate (some u) depth g = .ok (a, ga) →
      gr.iterate (some v) depth g = .ok (b, gb) →
      gb = ga ∧ a.length = b.length ∧ List.Forall₂ Symbol.SameButMark a b ∧
        gr.origins v depth.toNat g = gr.origins u depth.toNat g ∧
        (gr.origins u depth.toNat g).length = a.length ∧
        ∀ (i : Nat) (s t : Symbol Float), a[i]? = some s → b[i]? = some t →
          ∃ o, (gr.origins u depth.toNat g)[i]? = some o ∧ gr.Twin u v o s t) ∧
    (0 ≤ depth → ∀ w, gr.iterate (some w) depth g =
      (settled (gr.course w depth.toNat g)).mapError .step) ∧
    (gr.course v depth.toNat g).2 = (gr.course u depth.toNat g).2 := by
  obtain ⟨horigins, hleft, hcourse⟩ := course_twins huv (twins_start huv) depth.toNat g
  have hiterate : Corresponds DeriveError.SameButMark
      -- the two derivations are compared by their courses, which leave the same source
      (fun p q => p.2 = q.2 ∧ gr.Twins u v (gr.origins u depth.toNat g) p.1 q.1)
      (gr.iterate (some u) depth g) (gr.iterate (some v) depth g) := by
    unfold iterate
    split
    · exact .error (.negativeDepth depth)
    · rw [derive_eq_course, derive_eq_course]
      exact (hcourse.settled hleft.symm).mapError fun _ _ => .step
  have hsame : gr.origins v depth.toNat g = gr.origins u depth.toNat g := by
    -- origins start from the places of the start words, and these are as many in both
    rw [origins, origins, ← huv.length_eq]
    exact horigins
  have hcourses : (0 ≤ depth → ∀ w, gr.iterate (some w) depth g =
      (settled (gr.course w depth.toNat g)).mapError .step) ∧
      (gr.course v depth.toNat g).2 = (gr.course u depth.toNat g).2 :=
    ⟨fun hdepth w => gr.iterate_eq_course w hdepth g, hleft⟩
  generalize gr.iterate (some u) depth g = x at hiterate ⊢
  generalize gr.iterate (some v) depth g = y at hiterate ⊢
  cases hiterate with
  | error errors =>
    refine ⟨by simp, fun d e hd he => ?_, by simp, hcourses⟩
    obtain rfl := Except.error.inj hd
    obtain rfl := Except.error.inj he
    exact errors
  | ok results =>
    obtain ⟨hsource, htwins⟩ := results
    refine ⟨by simp, by simp, fun a b ga gb ha hb => ?_, hcourses⟩
    obtain rfl := Except.ok.inj ha
    obtain rfl := Except.ok.inj hb
    exact ⟨hsource.symm, htwins.length_eq.2, htwins.sameButMark huv, hsame, htwins.length_eq.1,
      fun i s t => htwins.exists_twin⟩

/-- A marked bud and an unmarked one, drawn for by lot: the rule makes a marked leaf in both words, and
the stem, which no rule replaces, keeps the mark that it has in the one and not in the other. -/
theorem iterate_of_sameButMarks_bud :
    let grow : Rule :=
      { predecessor := "A", params := ["x"], weight := some 3.0
        successor := [⟨"A", [.bin .add (.var "x") (.num 1.0)], false⟩, ⟨"L", [], true⟩] }
    let die : Rule := { predecessor := "A", params := ["x"], weight := some 1.0 }
    let gr : Grammar := { groups := [("A", [grow, die])] }
    let u : Word := [⟨"S", [], true⟩, ⟨"A", [1.0], true⟩]
    let v : Word := [⟨"S", [], false⟩, ⟨"A", [1.0], false⟩]
    let g : Counted Replay := { source := ⟨#[0.5, 0.25], 0⟩ }
    let g' : Counted Replay := { source := ⟨#[0.5, 0.25], 2⟩, count := 2 }
    let bud : Symbol Float := ⟨"A", [3.0], false⟩
    let leaf : Symbol Float := ⟨"L", [], true⟩
    List.Forall₂ Symbol.SameButMark u v ∧
      gr.iterate (some u) 2 g = .ok ([⟨"S", [], true⟩, bud, leaf, leaf], g') ∧
      gr.iterate (some v) 2 g = .ok ([⟨"S", [], false⟩, bud, leaf, leaf], g') ∧
      (∃ o, (gr.origins u 2 g)[0]? = some o ∧ gr.Twin u v o ⟨"S", [], true⟩ ⟨"S", [], false⟩) ∧
      ∃ o, (gr.origins u 2 g)[2]? = some o ∧ gr.Twin u v o leaf leaf := by
  intro grow die gr u v g g' bud leaf
  have huv : List.Forall₂ Symbol.SameButMark u v := .cons ⟨rfl, rfl⟩ (.cons ⟨rfl, rfl⟩ .nil)
  have hu : gr.iterate (some u) 2 g = .ok ([⟨"S", [], true⟩, bud, leaf, leaf], g') := by
    decide +kernel
  have hv : gr.iterate (some v) 2 g = .ok ([⟨"S", [], false⟩, bud, leaf, leaf], g') := by
    decide +kernel
  obtain ⟨-, -, hwords, -⟩ := iterate_of_sameButMarks gr huv 2 g
  obtain ⟨-, -, -, -, -, htwin⟩ := hwords _ _ _ _ hu hv
  exact ⟨huv, hu, hv, htwin 0 _ _ rfl rfl, htwin 2 _ _ rfl rfl⟩

end Steps

end Grammar

end Arbor
