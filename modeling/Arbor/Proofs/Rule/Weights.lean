import Arbor.Proofs.Expr.Derivation
import Arbor.Proofs.Reach
import Arbor.Proofs.Rule.Legible

/-!
# Which sections are weights

A section behind a colon is a weight if its expression is a number, and otherwise it is a condition.
What is a number is decided on the tree, where a literal has lost its parentheses and, with them, the
minus signs before it. The tree of a truth value is told apart from a number, so that `: true` is a
condition. But minus a truth value is a number, like any minus of a literal. So a section that is
`--true` is a weight, of one, and a section that is `-true` is a weight that is not positive
(`Rule.minus_truth_weighs`).

Here this is said of the sections as they are written. `Expr.Signed` are the rows of tokens that are a
literal in parentheses and behind minus signs, and `Rule.Sectioned` says what the sections of a text
are. A rule that is read has a weight just if its last section is a number of this kind, or a truth
value behind a minus. A section in which a truth value occurs is a condition in all other cases
(`Rule.weight_as_written`).
-/

namespace Arbor

namespace Expr

/-! ### Literals in parentheses and behind minus signs -/

/-- The tokens that are literals, and their trees. -/
inductive Literal : Token → Expr → Prop
  | number (d : Numeral.Decimal) : Literal (.number d) (.num d.toFloat)
  | truth (b : Bool) : Literal (.truth b) (.truth b)

/-- **Signed literals.** The token `t` in parentheses and behind `n` minus signs. -/
inductive Signed (t : Token) : Nat → List Token → Prop
  | literal : Signed t 0 [t]
  | minus {n : Nat} {ts : List Token} (inner : Signed t n ts) : Signed t (n + 1) (.op .sub :: ts)
  | paren {n : Nat} {ts : List Token} (inner : Signed t n ts) :
      Signed t n (.lparen :: (ts ++ [.rparen]))

/-- A number, in parentheses and behind minus signs. -/
def SignedNumber (ts : List Token) : Prop := ∃ d n, Signed (.number d) n ts

/-- A truth value, in parentheses and behind one minus sign or more. -/
def MinusTruth (ts : List Token) : Prop := ∃ b n, Signed (.truth b) (n + 1) ts

section Literals

variable {l : Level} {t : Token} {n : Nat} {ts : List Token} {a e : Expr}

/-- A literal is an expression by itself. -/
theorem Literal.derives (h : Literal t a) : Derives .atom [t] a := by
  cases h with
  | number d => exact .number d
  | truth b => exact .truth b

/-- Minus a literal is a number. -/
theorem exists_num_of_negated (h : a.isLiteral = true) : ∃ v, a.negated = .num v := by
  cases a with
  | num v => exact ⟨_, rfl⟩
  | truth b => exact ⟨_, rfl⟩
  | var | neg | not | bin => cases h

/-- The minus signs are worked off one after the other. -/
theorem exists_num_of_iterate (h : a.isLiteral = true) (n : Nat) :
    ∃ v, Expr.negated^[n + 1] a = .num v := by
  induction n with
  | zero => exact exists_num_of_negated h
  | succ n ih =>
    obtain ⟨v, hv⟩ := ih
    rw [Function.iterate_succ_apply', hv]
    exact ⟨_, rfl⟩

/-- **A signed literal is an expression**, whose tree has one minus for each sign. -/
theorem Signed.derives (h : Signed t n ts) (ha : Literal t a) :
    Derives .unary ts (Expr.negated^[n] a) := by
  induction h with
  | literal => exact ha.derives.loosen (by decide)
  | minus _ ih =>
    rw [Function.iterate_succ_apply']
    exact .minus ih
  | paren _ ih =>
    -- in parentheses anything may stand, and outside they are an atom
    have hinner := ih.loosen (show Level.rank .disjunction ≤ Level.rank .unary by decide)
    exact hinner.paren.loosen (by decide)

/-- **A tree that is a literal** is that of a signed literal. -/
theorem Derives.exists_signed (h : Derives l ts e) (he : e.isLiteral = true) :
    ∃ t n a, Literal t a ∧ Signed t n ts ∧ e = Expr.negated^[n] a := by
  induction h with
  | tighter _ _ ih => exact ih he
  | number d => exact ⟨_, 0, _, .number d, .literal, rfl⟩
  | truth b => exact ⟨_, 0, _, .truth b, .literal, rfl⟩
  | paren _ ih =>
    obtain ⟨t, n, a, ha, hsigned, rfl⟩ := ih he
    exact ⟨t, n, a, ha, hsigned.paren, rfl⟩
  | @minus ts a _ ih =>
    -- minus anything else is no literal
    have hliteral : a.isLiteral = true := by
      by_contra hne
      rw [negated_eq (Bool.eq_false_iff.2 hne)] at he
      cases he
    obtain ⟨t, n, a, ha, hsigned, rfl⟩ := ih hliteral
    refine ⟨t, n + 1, a, ha, hsigned.minus, ?_⟩
    rw [Function.iterate_succ_apply']
  | chain | not | compare | power | var => cases he

/-- **Which tokens are a number**: a signed number, and a truth value behind a minus. -/
theorem Derives.num_iff (h : Derives l ts e) :
    (∃ v, e = .num v) ↔ SignedNumber ts ∨ MinusTruth ts := by
  constructor
  · rintro ⟨v, rfl⟩
    obtain ⟨t, n, a, ha, hsigned, hv⟩ := h.exists_signed rfl
    cases ha with
    | number d => exact .inl ⟨d, n, hsigned⟩
    | truth b =>
      -- without a minus the tree is the truth value itself
      cases n with
      | zero => cases hv
      | succ n => exact .inr ⟨b, n, hsigned⟩
  · -- a signed literal has a tree of its own, and the tokens have only one
    have htree : ∀ {t n a}, Literal t a → Signed t n ts → e = Expr.negated^[n] a := by
      intro t n a ha hsigned
      have hloose : Derives .disjunction ts e := h.loosen (Nat.zero_le _)
      exact hloose.unique ((hsigned.derives ha).loosen (Nat.zero_le _))
    rintro (⟨d, n, hsigned⟩ | ⟨b, n, hsigned⟩)
    · rw [htree (.number d) hsigned]
      cases n with
      | zero => exact ⟨_, rfl⟩
      | succ n => exact exists_num_of_iterate rfl n
    · rw [htree (.truth b) hsigned]
      exact exists_num_of_iterate rfl n

/-- The only literal in a signed literal is its own. -/
theorem Signed.eq_of_literal (h : Signed t n ts) {u : Token} (hu : Literal u a) (hmem : u ∈ ts) :
    u = t := by
  induction h with
  | literal => exact List.mem_singleton.1 hmem
  | minus _ ih =>
    -- signs and parentheses are no literals
    rcases List.mem_cons.1 hmem with rfl | hmem
    · cases hu
    · exact ih hmem
  | paren _ ih =>
    rcases List.mem_cons.1 hmem with rfl | hmem
    · cases hu
    rcases List.mem_append.1 hmem with hmem | hmem
    · exact ih hmem
    · obtain rfl := List.mem_singleton.1 hmem
      cases hu

/-- **Where a truth value occurs** there is no number, unless it is minus the truth value. -/
theorem Derives.ne_num (h : Derives l ts e) {b : Bool} (hb : .truth b ∈ ts)
    (hminus : ¬ MinusTruth ts) : ∀ v, e ≠ .num v := by
  intro v hv
  rcases h.num_iff.1 ⟨v, hv⟩ with ⟨d, n, hsigned⟩ | htruth
  · cases hsigned.eq_of_literal (.truth b) hb
  · exact hminus htruth

end Literals

end Expr

open Arbor.Expr (Derives SignedNumber MinusTruth)

namespace Rule

/-! ### Sections as they are written -/

/-- The tokens of a section: an asterisk, or those of an expression. -/
inductive SectionRow : List Token → Section → Prop
  | always : SectionRow [.op .mul] .always
  | expr {ts : List Token} {e : Expr} (derives : Derives .disjunction ts e) : SectionRow ts (.expr e)

/-- Rows of tokens with a colon before each. -/
def sectionTerminals (rows : List (List Token)) : List Terminal :=
  rows.flatMap fun row => .token .colon :: row.map .token

/-- **Sections of a text.** The text has the form of a rule, and `rows` are the tokens of its
sections. -/
inductive Sectioned (s : String) (rows : List (List Token)) : Prop
  | mk {l b r u : List Terminal} {w : Written}
      (scan : Scan [] s.toList
        (l ++ (b ++ (r ++ (sectionTerminals rows ++ .token .arrow :: u)))))
      (left : LeftPart l w.left w.predecessor)
      (params : Parenthesized ParamName b w.params)
      (right : RightPart r w.right)
      (sections : List.Forall₂ SectionRow rows w.sections)
      (successor : Repeated TemplatePart u w.successor)

section Rows

variable {s : String} {row : List Token} {rows : List (List Token)} {w : Written} {part : Section}
  {parts : List Section} {ts : List Terminal}

/-- A section is written with a colon before its tokens. -/
theorem SectionRow.sectionPart (h : SectionRow row part) :
    SectionPart (.token .colon :: row.map .token) part := by
  cases h with
  | always => exact .always
  | expr derives => exact .expr (.mk derives)

/-- Every section is a colon and a row of tokens. -/
theorem SectionPart.exists_row (h : SectionPart ts part) :
    ∃ row, SectionRow row part ∧ ts = .token .colon :: row.map .token := by
  cases h with
  | always => exact ⟨_, .always, rfl⟩
  | expr phrase =>
    obtain ⟨derives⟩ := phrase
    exact ⟨_, .expr derives, rfl⟩

/-- Rows with their colons are sections, one after the other. -/
theorem repeated_sectionTerminals (h : List.Forall₂ SectionRow rows parts) :
    Repeated SectionPart (sectionTerminals rows) parts := by
  induction h with
  | nil => exact .nil
  | cons hrow _ ih => exact .cons hrow.sectionPart ih

/-- All sections are rows with colons. -/
theorem Repeated.exists_rows (h : Repeated SectionPart ts parts) :
    ∃ rows, List.Forall₂ SectionRow rows parts ∧ ts = sectionTerminals rows := by
  induction h with
  | nil => exact ⟨[], .nil, rfl⟩
  | cons item _ ih =>
    obtain ⟨row, hrow, rfl⟩ := item.exists_row
    obtain ⟨rows, hrows, rfl⟩ := ih
    exact ⟨row :: rows, .cons hrow hrows, rfl⟩

/-- A text with sections has the form of a rule, -/
theorem Sectioned.exists_reading (h : Sectioned s rows) :
    ∃ w, Reading s w ∧ List.Forall₂ SectionRow rows w.sections := by
  obtain ⟨scan, left, params, right, sections, successor⟩ := h
  have hsections := repeated_sectionTerminals sections
  exact ⟨_, ⟨_, scan, .mk left params right hsections successor⟩, sections⟩

/-- and a text that has the form of a rule has sections. -/
theorem Reading.exists_sectioned (h : Reading s w) : ∃ rows, Sectioned s rows := by
  obtain ⟨ts, hscan, hsentence⟩ := h
  cases hsentence with
  | mk left params right sections successor =>
    obtain ⟨rows, hrows, rfl⟩ := sections.exists_rows
    exact ⟨rows, .mk hscan left params right hrows successor⟩

/-- **Which sections are numbers**, as they are written. -/
theorem SectionRow.num_iff (h : SectionRow row part) :
    (∃ v, part = .expr (.num v)) ↔ SignedNumber row ∨ MinusTruth row := by
  cases h with
  | always =>
    constructor
    · rintro ⟨v, hv⟩
      cases hv
    · rintro (⟨d, n, hsigned⟩ | ⟨b, n, hsigned⟩)
      · cases hsigned
      · cases hsigned
  | expr derives => simpa using derives.num_iff

/-- A section in which a truth value occurs is an expression, and no number unless it is minus the truth
value. -/
theorem SectionRow.exists_expr (h : SectionRow row part) {b : Bool} (hb : .truth b ∈ row)
    (hminus : ¬ MinusTruth row) :
    ∃ e, Derives .disjunction row e ∧ part = .expr e ∧ ∀ v, e ≠ .num v := by
  cases h with
  | always => cases List.mem_singleton.1 hb
  | expr derives => exact ⟨_, derives, rfl, derives.ne_num hb hminus⟩

/-- One row is one section. -/
theorem exists_of_single (h : List.Forall₂ SectionRow [row] parts) :
    ∃ part, parts = [part] ∧ SectionRow row part := by
  obtain ⟨part, rest, hrow, hrest, rfl⟩ := List.forall₂_cons_left_iff.1 h
  obtain rfl := List.forall₂_nil_left_iff.1 hrest
  exact ⟨part, rfl, hrow⟩

/-- The last rows belong to the last sections. -/
theorem rel_getLast? (h : List.Forall₂ SectionRow rows parts) :
    Option.Rel SectionRow rows.getLast? parts.getLast? := by
  induction h with
  | nil => exact .none
  | cons hrow hrows ih =>
    cases hrows with
    | nil => exact .some hrow
    | cons => simpa only [List.getLast?_cons_cons] using ih

end Rows

/-! ### Weights and conditions -/

section Stated

variable {rows : List (List Token)} {row : List Token} {sections : List Section}
  {condition : Option Expr} {weight : Option Float}

/-- A weight is stated just if the last section is a number. -/
theorem Stated.isSome_iff (h : Stated sections condition weight) :
    weight.isSome = true ↔ ∃ v, sections.getLast? = some (.expr (.num v)) := by
  cases h with
  | nothing | always => exact iff_of_false nofun nofun
  | weight v | weighted _ v | alwaysWeighted v => exact iff_of_true rfl ⟨v, rfl⟩
  | condition no_number =>
    refine iff_of_false Bool.false_ne_true ?_
    rintro ⟨v, hv⟩
    exact no_number v (Section.expr.inj (Option.some.inj hv))

/-- A rule has a weight just if its last section is a number with signs, or a truth value with minus
signs. -/
theorem Stated.isSome_iff_row (h : Stated sections condition weight)
    (hrows : List.Forall₂ SectionRow rows sections) :
    weight.isSome = true ↔ ∃ row, rows.getLast? = some row ∧ (SignedNumber row ∨ MinusTruth row) := by
  have hlast := rel_getLast? hrows
  rw [h.isSome_iff]
  generalize rows.getLast? = last at hlast
  generalize sections.getLast? = last' at hlast
  cases hlast with
  | none => exact iff_of_false nofun nofun
  | some hrow => simpa using hrow.num_iff

/-- A single expression that is no number states no weight. -/
theorem Stated.weight_eq_none {e : Expr} (h : Stated [.expr e] condition weight)
    (no_number : ∀ v, e ≠ .num v) : weight = none := by
  cases h with
  | weight v => exact absurd rfl (no_number v)
  | condition => rfl

/-- An expression that is no number is stated as the condition. -/
theorem Stated.condition_eq (h : Stated sections condition weight) {e : Expr}
    (he : .expr e ∈ sections) (no_number : ∀ v, e ≠ .num v) : condition = some e := by
  cases h with
  | nothing => cases he
  | weight v => exact absurd (Section.expr.inj (List.mem_singleton.1 he)) (no_number v)
  | condition => rw [Section.expr.inj (List.mem_singleton.1 he)]
  | always => cases List.mem_singleton.1 he
  | weighted f v =>
    -- the second section is a number, so the expression is the first
    rcases List.mem_cons.1 he with he | he
    · rw [Section.expr.inj he]
    · exact absurd (Section.expr.inj (List.mem_singleton.1 he)) (no_number v)
  | alwaysWeighted v =>
    rcases List.mem_cons.1 he with he | he
    · cases he
    · exact absurd (Section.expr.inj (List.mem_singleton.1 he)) (no_number v)

end Stated

/-! ### The text of a rule -/

section Text

variable {s : String} {r : Rule} {w w' : Written} {flaw : Flaw}

/-- The parts of a text are definite. -/
theorem Reading.unique (h : Reading s w) (h' : Reading s w') : w = w' :=
  Option.some.inj (((reading_iff s w).1 h).symm.trans ((reading_iff s w').1 h'))

/-- What the sections of a rule that was read state. -/
theorem Reading.stated_of_parse (hw : Reading s w) (h : parse s = .ok r) :
    Stated w.sections r.condition r.weight := by
  obtain ⟨w', r₀, hw', hverdict, rfl⟩ := exists_reading_of_parse h
  obtain rfl := hw.unique hw'
  cases hverdict with
  | rule _ stated => exact stated

/-- What is wrong with a text is wrong with its parts. -/
theorem Reading.verdict_of_parse (hw : Reading s w) (h : parse s = .error ⟨flaw, s⟩) :
    Verdict w (.error flaw) := by
  obtain ⟨v, hv⟩ := exists_verdict hw.contexts_ne_nil.1 hw.contexts_ne_nil.2
  simp only [parse, (reading_iff s w).1 hw, hv.toRule] at h
  -- the parts have a verdict, and it can be no other than what has become of the text
  cases v with
  | ok r => cases h
  | error flaw' =>
    rw [(Error.mk.inj (Except.error.inj h)).1] at hv
    exact hv

/-- A single section that is no number is not refused for its weight. -/
theorem Reading.not_weight_error {e : Expr} (hw : Reading s w) (hsections : w.sections = [.expr e])
    (no_number : ∀ v, e ≠ .num v) :
    parse s ≠ .error ⟨.weightNotPositive, s⟩ ∧ parse s ≠ .error ⟨.weightExpected, s⟩ := by
  constructor
  · intro h
    cases hw.verdict_of_parse h with
    -- a weight that is stated would be the number that there is not
    | weightNotPositive _ stated =>
      rw [hsections] at stated
      cases stated with
      | weight => exact no_number _ rfl
  · intro h
    cases hw.verdict_of_parse h with
    | weightExpected _ two =>
      rw [hsections] at two
      cases two

/-! ### Two texts with a truth value -/

/-- A text of a predecessor, one section and a successor of one symbol has this section. -/
theorem sectioned_of_lexes {p c : Char} {row : List Token} {e : Expr}
    (hderives : Derives .disjunction row e)
    (hlexes : Lexes s.toList
      (.symbol p :: .token .colon :: (row.map .token ++ [.token .arrow, .symbol c])) []) :
    Sectioned s [row] := by
  let w : Written := ⟨none, p, [], none, [.expr e], [⟨symbolName c, [], false⟩]⟩
  have hleft : LeftPart [.symbol p] w.left w.predecessor := .alone p
  have hrow : List.Forall₂ SectionRow [row] w.sections := .cons (.expr hderives) .nil
  have htemplate : TemplatePart [.symbol c] ⟨symbolName c, [], false⟩ := .plain c .absent
  have hsuccessor : Repeated TemplatePart [.symbol c] w.successor := .cons htemplate .nil
  have hsentence := Sentence.mk hleft .absent .absent (repeated_sectionTerminals hrow) hsuccessor
  -- one section is a colon and its row
  have hterminals : sectionTerminals [row] = .token .colon :: row.map .token := by
    simp [sectionTerminals]
  rw [← List.cons_append, ← hterminals] at hlexes
  have hscan := scan_of_lexes (p := []) rfl hlexes hsentence rfl
  exact .mk hscan hleft .absent .absent hrow hsuccessor

/-- A truth value behind two minus signs, as a section. -/
theorem sectioned_minus_truth :
    Sectioned "A : --true -> B" [[.op .sub, .op .sub, .truth true]] := by
  have hderives : Derives .disjunction [.op .sub, .op .sub, .truth true] (.num (- -1.0)) :=
    ((Expr.Signed.literal.minus.minus).derives (.truth true)).loosen (by decide)
  have h₁ : (Terminal.symbol 'A').Next "A : --true -> B".toList " : --true -> B".toList :=
    ⟨rfl, rfl⟩
  have h₂ : (Terminal.token .colon).Next " : --true -> B".toList " --true -> B".toList := rfl
  have h₃ : (Terminal.token (.op .sub)).Next " --true -> B".toList "-true -> B".toList := rfl
  have h₄ : (Terminal.token (.op .sub)).Next "-true -> B".toList "true -> B".toList := rfl
  have h₅ : (Terminal.token (.truth true)).Next "true -> B".toList " -> B".toList := rfl
  have h₆ : (Terminal.token .arrow).Next " -> B".toList " B".toList := rfl
  have h₇ : (Terminal.symbol 'B').Next " B".toList [] := ⟨rfl, rfl⟩
  exact sectioned_of_lexes hderives
    (.cons h₁ (.cons h₂ (.cons h₃ (.cons h₄ (.cons h₅ (.cons h₆ (.one h₇)))))))

/-- A truth value that is negated, as a section. -/
theorem sectioned_not_truth : Sectioned "A : !true -> B" [[.bang, .truth true]] := by
  have htruth : Derives .negation [.truth true] (.truth true) :=
    (Derives.truth true).loosen (by decide)
  have h₁ : (Terminal.symbol 'A').Next "A : !true -> B".toList " : !true -> B".toList := ⟨rfl, rfl⟩
  have h₂ : (Terminal.token .colon).Next " : !true -> B".toList " !true -> B".toList := rfl
  have h₃ : (Terminal.token .bang).Next " !true -> B".toList "true -> B".toList := rfl
  have h₄ : (Terminal.token (.truth true)).Next "true -> B".toList " -> B".toList := rfl
  have h₅ : (Terminal.token .arrow).Next " -> B".toList " B".toList := rfl
  have h₆ : (Terminal.symbol 'B').Next " B".toList [] := ⟨rfl, rfl⟩
  exact sectioned_of_lexes (htruth.not.loosen (by decide))
    (.cons h₁ (.cons h₂ (.cons h₃ (.cons h₄ (.cons h₅ (.one h₆))))))

/-- The first of the two is read as a weight. -/
theorem parse_minus_truth : parse "A : --true -> B" = .ok
    { predecessor := "A"
      weight := some 1.0
      successor := [⟨"B", [], false⟩]
      source := some "A : --true -> B" } := by
  decide +kernel

/-- The second is read as a condition. -/
theorem parse_not_truth : parse "A : !true -> B" = .ok
    { predecessor := "A"
      condition := some (.not (.truth true))
      successor := [⟨"B", [], false⟩]
      source := some "A : !true -> B" } := by
  decide +kernel

/-! ### Weights -/

/-- **Weights as they are written.** A text that is read has sections. The rule has a weight just if the
last of them is a number, or a truth value behind a minus, in parentheses or not. Any other section in
which a truth value occurs is the condition of the rule; if it is the only one the rule has no weight, and
whatever may be wrong with the text, it is not the weight. -/
theorem weight_as_written (s : String) :
    (∀ r, parse s = .ok r → ∃ rows, Sectioned s rows) ∧
    ∀ rows, Sectioned s rows →
      (∀ r, parse s = .ok r → (r.isStochastic = true ↔
        ∃ row, rows.getLast? = some row ∧ (SignedNumber row ∨ MinusTruth row))) ∧
      ∀ row ∈ rows, ∀ b, .truth b ∈ row → ¬ MinusTruth row →
        (∀ r, parse s = .ok r → ∃ e, Derives .disjunction row e ∧ r.condition = some e) ∧
        (rows = [row] → (∀ r, parse s = .ok r → r.isStochastic = false) ∧
          parse s ≠ .error ⟨.weightNotPositive, s⟩ ∧ parse s ≠ .error ⟨.weightExpected, s⟩) := by
  constructor
  · intro r h
    obtain ⟨w, r₀, hw, -⟩ := exists_reading_of_parse h
    exact hw.exists_sectioned
  · intro rows hsectioned
    -- both are about the rule as it is written, whose sections are those rows
    obtain ⟨w, hw, hrows⟩ := hsectioned.exists_reading
    refine ⟨fun r h => (hw.stated_of_parse h).isSome_iff_row hrows, ?_⟩
    intro row hrow b hb hminus
    refine ⟨fun r h => ?_, ?_⟩
    · obtain ⟨part, hpart, hsection⟩ := exists_of_forall₂ hrows hrow
      obtain ⟨e, derives, rfl, no_number⟩ := hsection.exists_expr hb hminus
      exact ⟨e, derives, (hw.stated_of_parse h).condition_eq hpart no_number⟩
    · rintro rfl
      obtain ⟨part, hsections, hsection⟩ := exists_of_single hrows
      obtain ⟨e, -, rfl, no_number⟩ := hsection.exists_expr hb hminus
      refine ⟨fun r h => ?_, hw.not_weight_error hsections no_number⟩
      have hstated := hw.stated_of_parse h
      rw [hsections] at hstated
      rw [Rule.isStochastic, hstated.weight_eq_none no_number]
      rfl

/-- Minus minus a truth value is a weight; a truth value that is negated is none. -/
theorem weight_as_written_truths :
    (∃ r, parse "A : --true -> B" = .ok r ∧ r.isStochastic = true) ∧
      ∃ r e, parse "A : !true -> B" = .ok r ∧ r.condition = some e ∧ r.isStochastic = false := by
  constructor
  · have hminus : MinusTruth [.op .sub, .op .sub, .truth true] :=
      ⟨true, 1, .minus (.minus .literal)⟩
    have hweight := ((weight_as_written _).2 _ sectioned_minus_truth).1 _ parse_minus_truth
    exact ⟨_, parse_minus_truth, hweight.2 ⟨_, rfl, .inr hminus⟩⟩
  · have hminus : ¬ MinusTruth [.bang, .truth true] := by
      rintro ⟨b, n, hsigned⟩
      cases hsigned
    have hsection := ((weight_as_written _).2 _ sectioned_not_truth).2 [.bang, .truth true]
      (by simp) true (by simp) hminus
    obtain ⟨e, -, he⟩ := hsection.1 _ parse_not_truth
    exact ⟨_, e, parse_not_truth, he, (hsection.2 rfl).1 _ parse_not_truth⟩

/-- **A truth value that is a weight**, and one that is refused as a weight. -/
theorem minus_truth_weighs :
    (∃ r row, parse "A : --true -> B" = .ok r ∧ Sectioned "A : --true -> B" [row] ∧
      .truth true ∈ row ∧ ¬ SignedNumber row ∧ r.condition = none ∧ r.weight = some 1.0) ∧
    parse "A : -true -> B" = .error ⟨.weightNotPositive, "A : -true -> B"⟩ := by
  constructor
  · refine ⟨_, _, parse_minus_truth, sectioned_minus_truth, by decide, ?_, rfl, rfl⟩
    rintro ⟨d, n, hsigned⟩
    cases hsigned.eq_of_literal (.truth true) (by decide)
  · decide +kernel

end Text

end Rule

end Arbor
