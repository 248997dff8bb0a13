import Arbor.Derivation.Step
import Arbor.Proofs.Derivation.Selection
import Arbor.Proofs.Grammar.Groups
import Arbor.Proofs.Grammar.Supply
import Arbor.Proofs.Rule.Legible
import Arbor.Proofs.Word.Text

/-!
# Derived words read back

A word that is derived in a grammar that was read can be written and read again
(`Grammar.parse_text_of_iterate`). By `Word.parse_text` this needs proper names, and they are an
invariant of derivations:

* a name that is read is proper, because it was taken from the text (`Rule.TemplatePart.legible`). So
  the start word has proper names only, and so has every template of a successor (`Rule.Proper`);
* inserting rules into a grammar changes none of them, so the grammar that is made of what was read
  is proper as a whole (`Grammar.Proper`);
* what takes the place of a symbol is the symbol itself or a successor of one of the grammar's rules.
  A step keeps proper names therefore, and by induction so does every number of steps.

That the parameters are finite is asked of the derived word itself. A sum of finite parameters may be
infinite, and may be gone again a step later.
-/

namespace Arbor

open Outcome

/-! ### Names that are read -/

/-- Every name in the successor is proper. -/
def Rule.Proper (r : Rule) : Prop := ∀ t ∈ r.successor, ProperName t.name

/-- The start word and the successors have proper names. -/
structure Grammar.Proper (gr : Grammar) : Prop where
  start : gr.start.Proper
  rules : ∀ name, ∀ r ∈ gr.rulesFor name, r.Proper

/-- A template keeps its name when its arguments are evaluated. -/
theorem Template.name_of_instantiate {env : Env} {t : Template} {s : Symbol Float}
    (h : t.instantiate env = .ok s) : s.name = t.name := by
  unfold instantiate at h
  obtain ⟨args, -, h⟩ := bind_eq_ok_iff.1 h
  obtain rfl := Except.ok.inj h
  rfl

/-- Symbols have the names of the templates that they are made of. -/
theorem proper_of_instantiate {env : Env} {us : List Template} {w : Word}
    (hus : ∀ t ∈ us, ProperName t.name) (h : us.mapM (Template.instantiate env) = .ok w) :
    w.Proper := by
  intro s hs
  -- each symbol comes from one of the templates
  obtain ⟨t, ht, hst⟩ := exists_of_mem_mapM h hs
  rw [Template.name_of_instantiate hst]
  exact hus t ht

/-- **A word that is read** has proper names. -/
theorem Word.proper_of_parse {s : String} {w : Word} (h : Word.parse s = .ok w) : w.Proper := by
  unfold Word.parse at h
  split at h
  · exact absurd h (by simp)
  · next us hus =>
    -- the text is a row of templates, and each of them is legible as it is spelled
    obtain ⟨ts, rest, hrow, hlexes, -⟩ := Rule.templates_iff.1 hus
    have hlegible := hrow.forall_mem (fun _ _ => Rule.TemplatePart.legible)
      (Rule.spelled_of_lexes hlexes)
    exact proper_of_instantiate (fun t ht => (hlegible t ht).1) (mapError_eq_ok_iff.1 h)

/-! ### Rules that are read -/

/-- **A rule that is read** has proper names in its successor. -/
theorem Rule.proper_of_parse {s : String} {r : Rule} (h : Rule.parse s = .ok r) : r.Proper := by
  obtain ⟨w, r', hlegible, hverdict, rfl⟩ := Rule.exists_written_of_parse h
  cases hverdict with
  | rule => exact fun t ht => (hlegible.successor t ht).1

/-- The rules of all lines are proper, since each was read from its line. -/
theorem proper_of_rulesOfLines {first : Nat} {lines : List String} {rules : List Rule}
    (h : rulesOfLines first lines = .ok rules) : ∀ r ∈ rules, r.Proper := by
  intro r hr
  obtain ⟨line, -, -, hline⟩ := exists_line_of_mem h hr
  exact Rule.proper_of_parse hline

namespace Grammar

/-- The rules of all supplies are proper. -/
theorem proper_of_suppliedRules {first : Nat} {texts : List String} {rules : List Rule}
    (h : suppliedRules first (texts.map .text) = .ok rules) : ∀ r ∈ rules, r.Proper := by
  intro r hr
  obtain ⟨supply, hsupply, n, part, hpart, hr⟩ := exists_supply_of_mem h hr
  -- a supply is a text here, and its rules are those of its lines
  obtain ⟨s, -, rfl⟩ := List.mem_map.1 hsupply
  exact proper_of_rulesOfLines hpart r hr

/-! ### Grammars that are read -/

/-- **A grammar that is read** from texts is proper. -/
theorem proper_of_read {start : String} {texts : List String} {gr : Grammar}
    (h : Grammar.read start (texts.map .text) = .ok gr) : gr.Proper := by
  obtain ⟨w, hw, h⟩ := bind_eq_ok_iff.1 h
  obtain ⟨rules, hrules, h⟩ := bind_eq_ok_iff.1 h
  obtain rfl := Except.ok.inj h
  constructor
  · -- inserting rules does not touch the start word
    rw [start_insertAll]
    exact Word.proper_of_parse hw
  · intro name r hr
    rw [rulesFor_insertAll] at hr
    -- the rules of a name are those that were inserted for it, in a grammar that had none
    rcases List.mem_append.1 hr with hnone | hr
    · exact absurd hnone List.not_mem_nil
    · exact proper_of_suppliedRules hrules r (List.mem_of_mem_filter hr)

/-! ### Proper names stay -/

section Derivation

variable {σ : Type} [Draws σ] {gr : Grammar} {w out : Word} {g g' : σ}

/-- The successor that a rule produces. -/
theorem proper_of_produce {r : Rule} {s : Symbol Float} (hr : r.Proper)
    (h : r.produce s = .ok out) : out.Proper := by
  unfold Rule.produce at h
  split at h
  · -- the templates are filled in, which changes no name
    exact proper_of_instantiate hr (mapError_eq_ok_iff.1 h)
  · -- a rule with another number of parameters produces nothing
    exact absurd h (by simp)

/-- What takes the place of one symbol. -/
theorem proper_of_replace {ctx : Neighbours} {position : Nat} {s : Symbol Float}
    (hgr : gr.Proper) (hs : ProperName s.name)
    (h : gr.replace ctx position s g = .ok (out, g')) : out.Proper := by
  -- a replacement is a choice and what is made of it
  obtain ⟨⟨chosen, g₁⟩, hselect, h⟩ := bind_eq_ok_iff.1 h
  obtain ⟨made, hmade, h⟩ := bind_eq_ok_iff.1 h
  obtain ⟨rfl, rfl⟩ := Prod.mk.inj (Except.ok.inj h)
  rw [mapError_eq_ok_iff] at hselect hmade
  unfold replacement at hmade
  split at hmade
  · -- no rule: the symbol stays
    obtain rfl := Except.ok.inj hmade
    intro t ht
    rw [List.mem_singleton.1 ht]
    exact hs
  · next r hr =>
    have hmem := (mem_of_select s _ ctx hselect hr).1
    exact proper_of_produce (hgr.rules s.name r hmem) hmade

/-- A step over the rest of a word keeps proper names. -/
theorem proper_of_stepFrom {left : Option String} {position : Nat} (hgr : gr.Proper)
    (hw : w.Proper) (h : gr.stepFrom left position w g = .ok (out, g')) : out.Proper := by
  induction w generalizing left position g out g' with
  | nil =>
    obtain ⟨rfl, -⟩ := Prod.mk.inj (Except.ok.inj h)
    exact hw
  | cons s w ih =>
    -- the first symbol is replaced, and then the others
    obtain ⟨⟨made, g₁⟩, hmade, h⟩ := bind_eq_ok_iff.1 h
    obtain ⟨⟨others, g₂⟩, hothers, h⟩ := bind_eq_ok_iff.1 h
    obtain ⟨rfl, -⟩ := Prod.mk.inj (Except.ok.inj h)
    have hhead := proper_of_replace hgr (hw s List.mem_cons_self) hmade
    have htail := ih (fun t ht => hw t (List.mem_cons_of_mem s ht)) hothers
    intro t ht
    rcases List.mem_append.1 ht with ht | ht
    · exact hhead t ht
    · exact htail t ht

/-- **A step** keeps proper names. -/
theorem proper_of_step (hgr : gr.Proper) (hw : w.Proper) (h : gr.step w g = .ok (out, g')) :
    out.Proper := proper_of_stepFrom hgr hw h

/-- **A derivation** keeps proper names. -/
theorem proper_of_derive {depth : Nat} (hgr : gr.Proper) (hw : w.Proper)
    (h : gr.derive w depth g = .ok (out, g')) : out.Proper := by
  -- the word and the source are general, since the first step leads to others
  induction depth generalizing w g with
  | zero =>
    obtain ⟨rfl, -⟩ := Prod.mk.inj (Except.ok.inj h)
    exact hw
  | succ depth ih =>
    obtain ⟨⟨w₁, g₁⟩, hstep, h⟩ := bind_eq_ok_iff.1 h
    exact ih (proper_of_step hgr hw hstep) h

/-- A word derived from the start of the grammar has proper names. -/
theorem proper_of_iterate {depth : Int} (hgr : gr.Proper)
    (h : gr.iterate none depth g = .ok (out, g')) : out.Proper := by
  unfold iterate at h
  split at h
  · exact absurd h (by simp)
  · exact proper_of_derive hgr hgr.start (mapError_eq_ok_iff.1 h)

/-- **A derived word reads back.** In a grammar that was read from texts, every derived word with
finite parameters is written as a text from which it is read again, symbol by symbol with the same
name and mark and with equal parameters. -/
theorem parse_text_of_iterate {start : String} {texts : List String} {depth : Int}
    (hread : Grammar.read start (texts.map .text) = .ok gr)
    (hderived : gr.iterate none depth g = .ok (w, g'))
    (hfinite : ∀ s ∈ w, ∀ x ∈ s.params, x.isFinite = true) :
    ∃ w', Word.parse w.text = .ok w' ∧ List.Forall₂ Symbol.Agrees w' w :=
  Word.parse_text (proper_of_iterate (proper_of_read hread) hderived) hfinite

end Derivation

/-- A derivation with a mark, a negative fraction and a parameter that grows. -/
theorem parse_text_of_iterate_sprout :
    ∃ gr w, Grammar.read "A(1)" (["A(x) -> ~F(-x/4)A(x+1)"].map .text) = .ok gr ∧
      gr.iterate none 2 (⟨#[], 0⟩ : Replay) = .ok (w, ⟨#[], 0⟩) ∧
      (∀ s ∈ w, ∀ x ∈ s.params, x.isFinite = true) ∧ w.text = "~F(-0.25)~F(-0.5)A(3)" ∧
      ∃ w', Word.parse w.text = .ok w' ∧ List.Forall₂ Symbol.Agrees w' w := by
  let leaf : Template := ⟨"F", [.bin .div (.neg (.var "x")) (.num 4.0)], true⟩
  let tip : Template := ⟨"A", [.bin .add (.var "x") (.num 1.0)], false⟩
  let rule : Rule :=
    { predecessor := "A", params := ["x"], successor := [leaf, tip],
      source := some "A(x) -> ~F(-x/4)A(x+1)" }
  let gr : Grammar := { start := [⟨"A", [1.0], false⟩], groups := [("A", [rule])] }
  let w : Word := [⟨"F", [-0.25], true⟩, ⟨"F", [-0.5], true⟩, ⟨"A", [3.0], false⟩]
  have hread : Grammar.read "A(1)" (["A(x) -> ~F(-x/4)A(x+1)"].map .text) = .ok gr := by
    decide +kernel
  have hderived : gr.iterate none 2 (⟨#[], 0⟩ : Replay) = .ok (w, ⟨#[], 0⟩) := rfl
  have hfinite : ∀ s ∈ w, ∀ x ∈ s.params, x.isFinite = true := by decide +kernel
  have htext : w.text = "~F(-0.25)~F(-0.5)A(3)" := by decide +kernel
  exact ⟨gr, w, hread, hderived, hfinite, htext, parse_text_of_iterate hread hderived hfinite⟩

end Grammar

end Arbor
