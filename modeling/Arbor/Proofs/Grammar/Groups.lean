import Arbor.Grammar.Reader
import Mathlib.Data.List.Nodup

/-!
# Groups of a grammar

What a grammar is made of after rules were inserted one by one. The rules of a predecessor are those
that were there and then those inserted for it, in their order (`Grammar.rulesFor_insertAll`), so that
rules of different predecessors do not get in each other's way. If no two rules have the same predecessor
and none has rules already, then every rule is a group (`Grammar.groups_insertAll_of_nodup`).
-/

namespace Arbor.Grammar

variable {g : Grammar} {rules : List Rule}

theorem insertAll_cons (g : Grammar) (r : Rule) (rules : List Rule) :
    g.insertAll (r :: rules) = (g.insert r).insertAll rules := rfl

/-- Insertions leave the start word. -/
theorem start_insertAll (g : Grammar) (rules : List Rule) : (g.insertAll rules).start = g.start := by
  induction rules generalizing g with
  | nil => rfl
  | cons r rules ih => exact ih (g.insert r)

/-- **The rules of a predecessor** are those that were there and those inserted for it. -/
theorem rulesFor_insertAll (g : Grammar) (rules : List Rule) (name : String) :
    (g.insertAll rules).rulesFor name =
      g.rulesFor name ++ rules.filter (·.predecessor = name) := by
  induction rules generalizing g with
  | nil => exact (List.append_nil _).symm
  | cons r rules ih =>
    rw [insertAll_cons, ih]
    by_cases h : r.predecessor = name
    · rw [← h, rulesFor_insert_self]
      simp
    · rw [rulesFor_insert_of_ne g r (Ne.symm h), List.filter_cons_of_neg (by simpa using h)]

/-! ### A group for each rule -/

/-- A predecessor that is new has a group of its own, which comes last. -/
theorem insertInto_of_fresh {r : Rule} {groups : List (String × List Rule)}
    (h : r.predecessor ∉ groups.map Prod.fst) :
    insertInto r groups = groups ++ [(r.predecessor, [r])] := by
  induction groups with
  | nil => rfl
  | cons group groups ih =>
    obtain ⟨name, rules⟩ := group
    -- the name of the first group is another one, and so are those behind it
    rw [List.map_cons, List.mem_cons, not_or] at h
    rw [insertInto, if_neg (Ne.symm h.1), ih h.2]
    rfl

/-- **Rules of different predecessors** are a group each. -/
theorem groups_insertAll_of_nodup
    (h : (g.groups.map Prod.fst ++ rules.map Rule.predecessor).Nodup) :
    (g.insertAll rules).groups = g.groups ++ rules.map fun r => (r.predecessor, [r]) := by
  induction rules generalizing g with
  | nil => exact (List.append_nil _).symm
  | cons r rules ih =>
    have hfresh : r.predecessor ∉ g.groups.map Prod.fst := by
      intro hmem
      exact List.disjoint_of_nodup_append h hmem List.mem_cons_self
    have hgroups : (g.insert r).groups = g.groups ++ [(r.predecessor, [r])] :=
      insertInto_of_fresh hfresh
    have hrest := ih (g := g.insert r) (by simpa [hgroups] using h)
    rwa [hgroups, List.append_assoc] at hrest

/-- Where the predecessors of the groups are distinct, a group is all the rules of its predecessor. -/
theorem rulesFor_of_mem_groups {name : String} {group : List Rule}
    (hkeys : (g.groups.map Prod.fst).Nodup) (h : (name, group) ∈ g.groups) :
    g.rulesFor name = group := by
  obtain ⟨before, after, hgroups⟩ := List.append_of_mem h
  have hlookup : g.groups.lookup name = some group := by
    refine List.lookup_eq_some_iff.2 ⟨before, after, hgroups, fun other hother => ?_⟩
    rw [hgroups, List.map_append, List.map_cons] at hkeys
    have hne := (List.nodup_append.1 hkeys).2.2 other.1 (List.mem_map_of_mem hother) name
      List.mem_cons_self
    simpa using hne.symm
  rw [rulesFor, hlookup]
  rfl

end Arbor.Grammar
