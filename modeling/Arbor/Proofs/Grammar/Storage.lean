import Arbor.Derivation.Step
import Arbor.Proofs.Grammar.Groups
import Arbor.Proofs.Outcome
import Mathlib.Data.List.Induction

/-!
# What a grammar keeps

A grammar keeps every rule that it was given, and keeps them in order (`Grammar.rules_kept`). Three
views show it. The rules of a predecessor are those given for it, in the order in which they were given.
All rules together are the given ones, each as often as it was given, with those of one predecessor next
to each other. And their number is the number of the given ones.

The views agree because the groups of a grammar are settled by the row of rules that it was given
(`Grammar.grouped`): a group for each predecessor, in the order of first appearance, with the rules of
that predecessor. An insertion makes of the groups of a row those of the row with one more rule
(`insertInto_grouped`), and so do insertions one after the other (`groups_insertAll`).

A step asks a grammar only for the rules of the names in the word (`step_congr`). So a rule for a name
that is not in the word has no say in the step.
-/

namespace Arbor.Grammar

open Outcome

/-! ### Names in the order of first appearance -/

/-- One name more counts only if it is new. -/
theorem eraseDups_concat (names : List String) (name : String) :
    (names ++ [name]).eraseDups =
      if name ∈ names then names.eraseDups else names.eraseDups ++ [name] := by
  rw [List.eraseDups_append]
  split
  · next hmem => simp [List.removeAll, hmem]
  · next hmem => simp [List.removeAll, hmem, List.eraseDups_cons]

/-- Names without repetitions repeat nothing. -/
theorem nodup_eraseDups (names : List String) : names.eraseDups.Nodup := by
  induction names using List.reverseRecOn with
  | nil => exact List.nodup_nil
  | append_singleton names name ih =>
    rw [eraseDups_concat]
    split
    · exact ih
    · next hmem =>
      rw [← List.mem_eraseDups] at hmem
      rw [← List.concat_eq_append]
      exact ih.concat hmem

/-! ### Groups -/

/-- **The groups of a row of rules**: one for each predecessor, in the order of first appearance. -/
def grouped (rules : List Rule) : List (String × List Rule) :=
  (rules.map Rule.predecessor).eraseDups.map fun name => (name, rules.filter (·.predecessor = name))

/-- The names of the groups are the predecessors, each once. -/
theorem map_fst_grouped (rules : List Rule) :
    (grouped rules).map Prod.fst = (rules.map Rule.predecessor).eraseDups := by
  rw [grouped, List.map_map]
  exact List.map_id _

/-- A rule goes to the group of its predecessor, if there is one. -/
theorem insertInto_of_mem {r : Rule} {names : List String} {group : String → List Rule}
    (hnodup : names.Nodup) (hmem : r.predecessor ∈ names) :
    insertInto r (names.map fun name => (name, group name)) =
      names.map fun name => (name, group name ++ if name = r.predecessor then [r] else []) := by
  induction names with
  | nil => exact absurd hmem List.not_mem_nil
  | cons name names ih =>
    obtain ⟨hfresh, hnodup⟩ := List.nodup_cons.1 hnodup
    rw [List.map_cons, List.map_cons, insertInto]
    by_cases h : name = r.predecessor
    · -- the names after it are others, so their groups stay
      have hrest : ∀ other ∈ names,
          (other, group other) = (other, group other ++ if other = r.predecessor then [r] else []) := by
        intro other hother
        have hne : other ≠ r.predecessor := fun heq => hfresh (h.trans heq.symm ▸ hother)
        rw [if_neg hne, List.append_nil]
      rw [if_pos h, if_pos h, List.map_congr_left hrest]
    · have hmem' : r.predecessor ∈ names := (List.mem_cons.1 hmem).resolve_left (Ne.symm h)
      rw [if_neg h, if_neg h, List.append_nil, ih hnodup hmem']

/-- One rule more belongs to the rules of its own predecessor. -/
theorem filter_concat (rules : List Rule) (r : Rule) (name : String) :
    (rules ++ [r]).filter (·.predecessor = name) =
      rules.filter (·.predecessor = name) ++ if name = r.predecessor then [r] else [] := by
  rw [List.filter_append]
  by_cases h : name = r.predecessor
  · simp [h]
  · simp [h, Ne.symm h]

/-- **One insertion** makes of the groups of a row those of the row with one more rule. -/
theorem insertInto_grouped (rules : List Rule) (r : Rule) :
    insertInto r (grouped rules) = grouped (rules ++ [r]) := by
  have hnames : ((rules ++ [r]).map Rule.predecessor).eraseDups =
      if r.predecessor ∈ rules.map Rule.predecessor then (rules.map Rule.predecessor).eraseDups
      else (rules.map Rule.predecessor).eraseDups ++ [r.predecessor] := by
    rw [List.map_append, List.map_singleton, eraseDups_concat]
  rw [grouped, grouped, hnames]
  simp only [filter_concat]
  split
  · next hknown => exact insertInto_of_mem (nodup_eraseDups _) (List.mem_eraseDups.2 hknown)
  · next hnew =>
    have hfresh : r.predecessor ∉ (grouped rules).map Prod.fst := by
      rwa [map_fst_grouped, List.mem_eraseDups]
    -- no rule before has this predecessor, so the groups before stay and the new one has one rule
    have hkept : ∀ name ∈ (rules.map Rule.predecessor).eraseDups,
        (name, rules.filter (·.predecessor = name)) = (name, rules.filter (·.predecessor = name) ++
          if name = r.predecessor then [r] else []) := by
      intro name hname
      have hne : name ≠ r.predecessor := fun heq => hnew (heq ▸ List.mem_eraseDups.1 hname)
      rw [if_neg hne, List.append_nil]
    have hnone : rules.filter (·.predecessor = r.predecessor) = [] := by
      refine List.filter_eq_nil_iff.2 fun q hq heq => hnew ?_
      exact of_decide_eq_true heq ▸ List.mem_map_of_mem hq
    rw [← grouped, insertInto_of_fresh hfresh, List.map_append, List.map_singleton, if_pos rfl, hnone,
      grouped, List.map_congr_left hkept]
    rfl

/-- **Insertions** one after the other. -/
theorem groups_insertAll {g : Grammar} {before : List Rule} (h : g.groups = grouped before)
    (rules : List Rule) : (g.insertAll rules).groups = grouped (before ++ rules) := by
  induction rules generalizing g before with
  | nil => rw [List.append_nil]; exact h
  | cons r rules ih =>
    have hinsert : (g.insert r).groups = grouped (before ++ [r]) := by
      rw [insert, h, insertInto_grouped]
    rw [insertAll_cons, ih hinsert, List.append_assoc]
    rfl

/-! ### All rules -/

/-- A rule that is inserted is added to the rules of all groups. -/
theorem flatMap_insertInto_perm (r : Rule) (groups : List (String × List Rule)) :
    ((insertInto r groups).flatMap Prod.snd).Perm (r :: groups.flatMap Prod.snd) := by
  induction groups with
  | nil => exact .refl _
  | cons group groups ih =>
    obtain ⟨name, rules⟩ := group
    -- the rule goes into the first group or into one behind it
    rw [insertInto]
    split
    · simp only [List.flatMap_cons, List.append_assoc, List.singleton_append]
      exact List.perm_middle
    · simp only [List.flatMap_cons]
      exact (ih.append_left rules).trans List.perm_middle

/-- **No rule is lost**, and none is there twice for being inserted once. -/
theorem rules_insertAll_perm (g : Grammar) (rules : List Rule) :
    (g.insertAll rules).rules.Perm (g.rules ++ rules) := by
  induction rules generalizing g with
  | nil => rw [List.append_nil]; exact .refl _
  | cons r rules ih =>
    have hinsert : (g.insert r).rules.Perm (r :: g.rules) := flatMap_insertInto_perm r g.groups
    rw [insertAll_cons]
    exact ((ih (g.insert r)).trans (hinsert.append_right rules)).trans List.perm_middle.symm

/-! ### What a step asks for -/

variable {σ : Type} [Draws σ]

/-- A step depends on the rules for the names in the word only. -/
theorem stepFrom_congr {g g' : Grammar} {w : Word}
    (h : ∀ s ∈ w, g.rulesFor s.name = g'.rulesFor s.name) (left : Option String) (position : Nat)
    (source : σ) : g.stepFrom left position w source = g'.stepFrom left position w source := by
  induction w generalizing left position source with
  | nil => rfl
  | cons s w ih =>
    have hs := h s List.mem_cons_self
    have hrest := ih fun s' hs' => h s' (List.mem_cons_of_mem s hs')
    simp only [stepFrom, replace, hs, hrest]

/-- **A step** asks for the rules of the names in the word, and for no others. -/
theorem step_congr {g g' : Grammar} {w : Word}
    (h : ∀ s ∈ w, g.rulesFor s.name = g'.rulesFor s.name) (source : σ) :
    g.step w source = g'.step w source :=
  stepFrom_congr h none 0 source

/-! ### The views of a grammar -/

/-- **A grammar as it was read**, from the text of its start word or with that word ready made. -/
inductive ReadFrom (supplies : List Supply) : Grammar → Prop
  | text {start : String} {g : Grammar} (succeeds : read start supplies = .ok g) :
      ReadFrom supplies g
  | ready {start : Word} {rules : List Rule} (succeeds : suppliedRules 1 supplies = .ok rules) :
      ReadFrom supplies (insertAll { start } rules)

/-- A grammar that is read has the rules supplied, inserted in their order. -/
theorem ReadFrom.exists_rules {supplies : List Supply} {g : Grammar} (h : ReadFrom supplies g) :
    ∃ start given, suppliedRules 1 supplies = .ok given ∧ g = insertAll { start } given := by
  cases h with
  | text succeeds =>
    obtain ⟨start, -, succeeds⟩ := bind_eq_ok_iff.1 succeeds
    obtain ⟨given, hgiven, succeeds⟩ := bind_eq_ok_iff.1 succeeds
    exact ⟨start, given, hgiven, (Except.ok.inj succeeds).symm⟩
  | ready succeeds => exact ⟨_, _, succeeds, rfl⟩

/-- **The rules are kept**, in a grammar that was read and had rules inserted after that. The given
rules are those that were read and then the inserted ones. The rules of a predecessor are the given
ones that have it, in their order. All rules are the given ones, each as often as it was given; they
stand by predecessors, in the order in which these came first, and by their order for each of them. The
size is the number of given rules. One more rule changes no step over a word without its predecessor. -/
theorem rules_kept {supplies : List Supply} {g : Grammar} (h : ReadFrom supplies g)
    (inserted : List Rule) :
    ∃ read, suppliedRules 1 supplies = .ok read ∧
      let given := read ++ inserted
      let g' := g.insertAll inserted
      (∀ name, g'.rulesFor name = given.filter (·.predecessor = name)) ∧
      g'.rules = (given.map Rule.predecessor).eraseDups.flatMap
        (fun name => given.filter (·.predecessor = name)) ∧
      g'.rules.Perm given ∧
      g'.size = given.length ∧
      ∀ (r : Rule) (w : Word) (source : σ), (∀ s ∈ w, s.name ≠ r.predecessor) →
        (g'.insert r).step w source = g'.step w source := by
  obtain ⟨start, read, hread, rfl⟩ := h.exists_rules
  refine ⟨read, hread, ?_⟩
  intro given g'
  -- what is read and what is inserted afterwards is one row of insertions
  have hg' : g' = insertAll { start } given := (List.foldl_append ..).symm
  have hperm : g'.rules.Perm given := by
    rw [hg']
    exact rules_insertAll_perm { start } given
  refine ⟨fun name => ?_, ?_, hperm, hperm.length_eq, fun r w source hw => ?_⟩
  · rw [hg', rulesFor_insertAll]
    rfl
  · have hgroups : g'.groups = grouped given := by
      rw [hg']
      have hempty : ({ start } : Grammar).groups = grouped [] := rfl
      exact groups_insertAll hempty given
    rw [rules, hgroups, grouped, List.flatMap_map]
  · exact step_congr (fun s hs => rulesFor_insert_of_ne g' r (hw s hs)) source

/-- Rules for three predecessors that come mixed, one of them twice. -/
theorem rules_kept_mixed :
    let twice : Rule := { predecessor := "A", successor := [⟨"B", [], false⟩] }
    let other : Rule := { predecessor := "C", right := some "B" }
    let supplies := [.text "A -> AB\nB -> A\n# C\nA : true -> C", .ready twice]
    let inserted := [other, twice]
    let word : Word := [⟨"C", [], false⟩, ⟨"B", [], false⟩]
    let source : Replay := ⟨#[0.5], 0⟩
    ∃ g read, Grammar.read "ABC" supplies = .ok g ∧ suppliedRules 1 supplies = .ok read ∧
      let g' := g.insertAll inserted
      g'.rules.Perm (read ++ inserted) ∧ g'.size = 6 ∧
      g'.rules.map Rule.predecessor = ["A", "A", "A", "A", "B", "C"] ∧
      g'.rulesFor "A" = (read ++ inserted).filter (·.predecessor = "A") ∧
      (g'.insert twice).step word source = g'.step word source := by
  intro twice other supplies inserted word source
  have hread : (Grammar.read "ABC" supplies).toOption.map
      (fun g => (g.insertAll inserted).rules.map Rule.predecessor) =
        some ["A", "A", "A", "A", "B", "C"] := by decide +kernel
  cases hg : Grammar.read "ABC" supplies with
  | error e =>
    rw [hg] at hread
    cases hread
  | ok g =>
    rw [hg] at hread
    -- six rules have been named, so there are as many
    have hnames : (g.insertAll inserted).rules.map Rule.predecessor =
        ["A", "A", "A", "A", "B", "C"] := Option.some.inj hread
    obtain ⟨read, hsupplied, hfor, -, hperm, hsize, hstep⟩ :=
      @rules_kept Replay _ _ _ (.text hg) inserted
    have hsix : (g.insertAll inserted).size = 6 := by
      exact (List.length_map Rule.predecessor).symm.trans (congrArg List.length hnames)
    exact ⟨g, read, rfl, hsupplied, hperm, hsix, hnames, hfor "A",
      hstep twice word source (by decide +kernel)⟩

end Arbor.Grammar
