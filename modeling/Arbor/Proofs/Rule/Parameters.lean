import Arbor.Proofs.Derivation.Failure
import Arbor.Proofs.Rule.Printing

/-!
# The names of parameters

A rule names its parameters so that its expressions can speak of them. Names are read in two places,
and not in the same way: in the list behind the predecessor every word is a name, while in an
expression the words `true` and `false` are kept for the truth values. So there is a name that can be
given to a parameter and cannot be used (`Rule.truth_not_usable`): in `A(true) -> B(true)` the
successor has the parameter one, whatever the parameter of the predecessor is.

What it is to be usable is said in `Rule.Usable`: where an operand is to be read the name is read as a
variable, a rule can have it in its condition and in its successor, and it has the value of the
parameter at its place. All names but the two are usable (`Rule.usable_iff`). That the place is a
definite one is due to the names being distinct.
-/

namespace Arbor

open Outcome

namespace Rule

/-! ### Using a name -/

/-- The rule with a name for its condition, and for the argument of a successor of one symbol. -/
def quoting (r : Rule) (name : String) : Rule :=
  { r with
    condition := some (.var name)
    weight := none
    successor := [⟨r.predecessor, [.var name], false⟩]
    source := none }

/-- The parts of that rule, from those of the rule. -/
def Written.quoting (w : Written) (name : String) : Written :=
  { w with
    sections := [.expr (.var name)]
    successor := [⟨symbolName w.predecessor, [.var name], false⟩] }

/-- **Usable.** What the name of the parameter at place `i` is good for. -/
structure Usable (r : Rule) (i : Nat) (name : String) : Prop where
  /-- Wherever an operand is to be read and the name stands there as a whole word, the operand is the
  variable of this name. -/
  operand : ∀ (n : Nat) (cs rest : List Char), Token.skipGaps cs = name.toList ++ rest →
    (∀ c, rest.head? = some c → Token.isNameRest c = false) →
      Expr.read? (n + 1) .atom cs = some (.var name, rest)
  /-- The name may be written as the condition of the rule and as an argument of its successor, and is
  the variable in both. -/
  written : ∃ r', parse (r.quoting name).canonicalText = .ok r' ∧ r'.params = r.params ∧
    r'.condition = some (.var name) ∧ r'.successor = [⟨r.predecessor, [.var name], false⟩]
  /-- The variable has the value of the parameter at the place of the name. -/
  bound : ∀ s : Symbol Float, r.matchesArity s = true →
    ∃ v, s.params[i]? = some v ∧ (Expr.var name).eval (r.env s) = .ok v

/-- A word that is kept for a truth value. -/
def IsTruthWord (name : String) : Prop := name = "true" ∨ name = "false"

instance (name : String) : Decidable (IsTruthWord name) := inferInstanceAs (Decidable (_ ∨ _))

section Names

variable {r : Rule} {w : Written} {name : String} {i : Nat}

/-- A name that is no truth value is a name. -/
theorem ofName_of_not_truthWord (h : ¬ IsTruthWord name) : Token.ofName name = .name name := by
  rw [IsTruthWord, not_or] at h
  rw [Token.ofName, if_neg h.1, if_neg h.2]

/-! ### Reading a name -/

/-- **A word as an operand** is the variable of this name, or a truth value. -/
theorem read?_atom_of_identifier (hword : Token.Identifier name.toList) {cs rest : List Char}
    (hcs : Token.skipGaps cs = name.toList ++ rest)
    (hends : ∀ c, rest.head? = some c → Token.isNameRest c = false) (n : Nat) :
    Expr.read? (n + 1) .atom cs =
      some (if IsTruthWord name then .truth (name = "true") else .var name, rest) := by
  have hnext := Token.next?_of_identifier_ends hword hcs hends
  rw [String.ofList_toList] at hnext
  by_cases h : IsTruthWord name
  · rcases h with rfl | rfl
    · simp only [Expr.read?, hnext]
      rfl
    · simp only [Expr.read?, hnext]
      rfl
  · rw [ofName_of_not_truthWord h] at hnext
    simp only [Expr.read?, hnext, if_neg h]

/-- **A name is bound by its place**, if the names are distinct. -/
theorem eval_var_of_matchesArity (hdistinct : r.params.Nodup) (hname : r.params[i]? = some name)
    {s : Symbol Float} (hs : r.matchesArity s = true) :
    ∃ v, s.params[i]? = some v ∧ (Expr.var name).eval (r.env s) = .ok v := by
  have hlength : r.params.length = s.arity := by simpa [matchesArity] using hs
  obtain ⟨hi, -⟩ := List.getElem?_eq_some_iff.1 hname
  have hi' : i < s.params.length := Nat.lt_of_lt_of_eq hi hlength
  refine ⟨s.params[i], List.getElem?_eq_getElem hi', ?_⟩
  have henv : r.env s name = some s.params[i] := by
    refine (env_eq_some_iff hlength).2 ⟨i, hname, List.getElem?_eq_getElem hi', ?_⟩
    -- a later place with the same name would be the same place
    intro j hj hj'
    exact hj.ne ((List.getElem?_inj hi hdistinct).1 (hname.trans hj'.symm))
  rw [Expr.eval, henv]

/-! ### Writing a name -/

/-- The name is the only expression of the rule that quotes it. -/
theorem printable_quoting (hlegible : (Expr.var name).Legible) : (r.quoting name).Printable := by
  refine ⟨fun e he => ?_, nofun⟩
  have hvar : e = .var name := by
    rcases mem_expressions.1 he with h | ⟨t, ht, h⟩
    · exact (Option.some.inj h).symm
    · obtain rfl := List.mem_singleton.1 ht
      exact List.mem_singleton.1 h
  rw [hvar]
  exact ⟨⟨hlegible, nofun⟩, trivial⟩

/-- What agrees with a variable is this variable. -/
theorem eq_of_agrees_var {e : Expr} (h : e.Agrees (.var name)) : e = .var name := by
  cases h
  rfl

/-- A rule that agrees with one that quotes a name quotes it too. -/
theorem Agrees.eq_of_quoting {r' : Rule} (h : r'.Agrees (r.quoting name)) :
    r'.condition = some (.var name) ∧ r'.successor = [⟨r.predecessor, [.var name], false⟩] := by
  constructor
  · have hcondition : Option.Rel Expr.Agrees r'.condition (some (.var name)) := h.condition
    generalize r'.condition = condition at hcondition
    cases hcondition with
    | some hagrees => rw [eq_of_agrees_var hagrees]
  · -- the successor is one template, and it has one argument
    obtain ⟨t, us, ht, hus, hsuccessor⟩ := List.forall₂_cons_right_iff.1 h.successor
    obtain ⟨e, es, he, hes, hargs⟩ := List.forall₂_cons_right_iff.1 ht.args
    obtain rfl := List.forall₂_nil_right_iff.1 hus
    obtain rfl := List.forall₂_nil_right_iff.1 hes
    rw [eq_of_agrees_var he] at hargs
    have heq : t = ⟨r.predecessor, [.var name], false⟩ := by
      cases t
      cases hargs
      cases ht.name
      cases ht.patch
      rfl
    rw [hsuccessor, heq]

/-- A rule that only hands one name on is legible if the name is. -/
theorem Written.Legible.quoting (h : w.Legible) (hname : (Expr.var name).Legible) :
    (w.quoting name).Legible := by
  refine ⟨h.left, h.predecessor, h.params, h.right, fun s hs e he => ?_, fun t ht => ?_⟩
  · obtain rfl := List.mem_singleton.1 hs
    obtain rfl := Section.expr.inj he
    exact hname
  · obtain rfl := List.mem_singleton.1 ht
    refine ⟨⟨w.predecessor, h.predecessor, rfl⟩, fun e he => ?_⟩
    obtain rfl := List.mem_singleton.1 he
    exact hname

/-- Nothing can be wrong with a condition and a successor of a name. -/
theorem Verdict.quoting (h : Verdict w (.ok r)) (name : String) :
    Verdict (w.quoting name) (.ok (r.quoting name)) := by
  cases h with
  | rule distinct stated positive single single' =>
    -- a variable is no number, so a section of its own is a condition
    have hstated : Stated (w.quoting name).sections (some (.var name)) none := .condition nofun
    exact .rule distinct hstated nofun single single'

/-- **A name is written** in the rule that quotes it, and read there as a variable. -/
theorem exists_parse_quoting (hlegible : w.Legible) (hverdict : Verdict w (.ok r))
    (hname : (Expr.var name).Legible) :
    ∃ r', parse (r.quoting name).canonicalText = .ok r' ∧ r'.params = r.params ∧
      r'.condition = some (.var name) ∧ r'.successor = [⟨r.predecessor, [.var name], false⟩] := by
  obtain ⟨w', r', hreading, hverdict', hagrees⟩ :=
    exists_reading_of_verdict (hlegible.quoting hname) (hverdict.quoting name) (printable_quoting hname)
  obtain ⟨hcondition, hsuccessor⟩ := hagrees.eq_of_quoting
  exact ⟨_, parse_of_verdict hreading hverdict', hagrees.params, hcondition, hsuccessor⟩

end Names

/-! ### Names that were read -/

section Read

variable {s : String} {r : Rule} {i : Nat} {name : String}

/-- **Names that are not kept are usable.** -/
theorem usable_of_not_truthWord (h : parse s = .ok r) (hname : r.params[i]? = some name)
    (hfree : ¬ IsTruthWord name) : r.Usable i name := by
  obtain ⟨w, r₀, hlegible, hverdict, rfl⟩ := exists_written_of_parse h
  have hparams : r₀.params = w.params ∧ w.params.Nodup := by
    cases hverdict with
    | rule distinct => exact ⟨rfl, distinct⟩
  have hmem : name ∈ w.params := by
    rw [← hparams.1]
    exact List.mem_of_getElem? hname
  have hword := hlegible.params name hmem
  have hvar : (Expr.var name).Legible := by
    have hlexeme := Token.lexeme_ofName hword
    rwa [String.ofList_toList, ofName_of_not_truthWord hfree] at hlexeme
  constructor
  · -- where the name begins an expression, an expression is read that is the name
    intro n cs rest hcs hends
    rw [read?_atom_of_identifier hword hcs hends, if_neg hfree]
  · have hwritten := exists_parse_quoting hlegible hverdict hvar
    exact hwritten
  · -- different parameters have different places, so the argument is that of the parameter
    intro symbol hsymbol
    refine eval_var_of_matchesArity ?_ hname hsymbol
    exact hparams.1 ▸ hparams.2

/-- **Which names can be used.** Of the names that a rule gives to its parameters, those are usable
that are not kept for the truth values. -/
theorem usable_iff (h : parse s = .ok r) (hname : r.params[i]? = some name) :
    r.Usable i name ↔ name ≠ "true" ∧ name ≠ "false" := by
  have hkept : (name ≠ "true" ∧ name ≠ "false") ↔ ¬ IsTruthWord name := by rw [IsTruthWord, not_or]
  rw [hkept]
  refine ⟨fun husable hword => ?_, usable_of_not_truthWord h hname⟩
  -- the word as a whole text is read as a truth value
  rcases hword with rfl | rfl
  · have hvar := husable.operand 0 "true".toList [] (by decide) (by simp)
    cases hvar
  · have hvar := husable.operand 0 "false".toList [] (by decide) (by simp)
    cases hvar

/-- The second of two names. -/
theorem usable_iff_second :
    ∃ r, parse "A(x,y) : x > 0 -> B(x + y)A(y)" = .ok r ∧ r.params[1]? = some "y" ∧ r.Usable 1 "y" := by
  have hparse : ∃ r, parse "A(x,y) : x > 0 -> B(x + y)A(y)" = .ok r ∧ r.params[1]? = some "y" :=
    ⟨{ predecessor := "A"
       params := ["x", "y"]
       condition := some (.bin .gt (.var "x") (.num 0.0))
       successor := [⟨"B", [.bin .add (.var "x") (.var "y")], false⟩, ⟨"A", [.var "y"], false⟩]
       source := some "A(x,y) : x > 0 -> B(x + y)A(y)" }, by decide +kernel, rfl⟩
  obtain ⟨r, hr, hname⟩ := hparse
  exact ⟨r, hr, hname, (usable_iff hr hname).2 (by decide)⟩

/-- **A name that cannot be used.** The parameter of `A` is five, and that of `B` is one. -/
theorem truth_not_usable :
    ∃ r, parse "A(true) -> B(true)" = .ok r ∧ r.params[0]? = some "true" ∧ ¬ r.Usable 0 "true" ∧
      r.produce ⟨"A", [5.0], false⟩ = .ok [⟨"B", [1.0], false⟩] := by
  let r : Rule :=
    { predecessor := "A"
      params := ["true"]
      successor := [⟨"B", [.truth true], false⟩]
      source := some "A(true) -> B(true)" }
  have hparse : parse "A(true) -> B(true)" = .ok r := by decide +kernel
  refine ⟨r, hparse, rfl, fun husable => ?_, by decide +kernel⟩
  have hvar := husable.operand 0 "true".toList [] (by decide) (by simp)
  cases hvar

end Read

end Rule

end Arbor
