import Arbor.Rule.Basic

/-!
# Grammars

A grammar is a word to start from and rules, which are kept in groups by predecessor. Groups stand
in the order in which their predecessors came first, and rules in a group in the order in which they
came. That order decides between rules, so `Grammar.insert` never changes it. Three views of a
grammar are in use: the rules of one predecessor (`rulesFor`), all rules (`rules`), and their number
(`size`).
-/

namespace Arbor

/-- **Grammar.** -/
structure Grammar where
  start : Word := []
  groups : List (String × List Rule) := []
  deriving DecidableEq, Repr

namespace Grammar

/-- A rule put at the end of its predecessor's group, or of a new last group. -/
def insertInto (r : Rule) : List (String × List Rule) → List (String × List Rule)
  | [] => [(r.predecessor, [r])]
  | (name, rules) :: groups =>
    if name = r.predecessor then (name, rules ++ [r]) :: groups
    else (name, rules) :: insertInto r groups

/-- A grammar with one more rule. -/
def insert (g : Grammar) (r : Rule) : Grammar := { g with groups := insertInto r g.groups }

/-- The rules of one predecessor, in the order in which they came. -/
def rulesFor (g : Grammar) (name : String) : List Rule := (g.groups.lookup name).getD []

/-- All rules, group by group. -/
def rules (g : Grammar) : List Rule := g.groups.flatMap (·.2)

/-- The number of rules. -/
def size (g : Grammar) : Nat := g.rules.length

/-! ### What an insertion does to the rules of a predecessor -/

/-- Looking up a name after an insertion into a list of groups. -/
theorem lookup_insertInto (r : Rule) (name : String) (groups : List (String × List Rule)) :
    ((insertInto r groups).lookup name).getD [] =
      (groups.lookup name).getD [] ++ if name = r.predecessor then [r] else [] := by
  induction groups with
  | nil =>
    by_cases h : name = r.predecessor <;>
      simp [insertInto, List.lookup_cons, h, beq_eq_false_iff_ne.2]
  | cons group groups ih =>
    obtain ⟨key, rules⟩ := group
    by_cases hk : key = r.predecessor
    · subst hk
      by_cases hn : name = r.predecessor <;>
        simp [insertInto, List.lookup_cons, hn, beq_eq_false_iff_ne.2]
    · by_cases hn : name = key
      · simp [insertInto, hk, hn]
      · simpa [insertInto, List.lookup_cons, hk, hn, beq_eq_false_iff_ne.2] using ih

/-- A rule goes to the end of its predecessor's rules. -/
theorem rulesFor_insert_self (g : Grammar) (r : Rule) :
    (g.insert r).rulesFor r.predecessor = g.rulesFor r.predecessor ++ [r] := by
  simp [insert, rulesFor, lookup_insertInto]

/-- A rule leaves the rules of other predecessors as they are. -/
theorem rulesFor_insert_of_ne (g : Grammar) (r : Rule) {name : String}
    (h : name ≠ r.predecessor) : (g.insert r).rulesFor name = g.rulesFor name := by
  simp [insert, rulesFor, lookup_insertInto, h]

end Grammar

end Arbor
