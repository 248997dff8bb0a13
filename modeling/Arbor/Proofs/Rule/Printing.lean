import Arbor.Proofs.Rule.Legible

/-!
# Rules printed and read again

A rule that was read keeps its text. Without it a rule is printed from its parts
(`Rule.canonicalText`), and that text is read as an equal rule (`Rule.parse_canonicalText`), provided
that no number in it is infinite and no negative literal is raised to a power.

Each part is read as what it was, with an arbitrary text behind it (`Rule.lexes_leftPart` and so on).
This takes names that can be read, which a rule that was read has (`Rule.Written.Legible`), and finite
numbers. The parts, one after the other, are a sentence, and the rule is its verdict
(`Rule.exists_reading_of_verdict`).

The sections could be taken for each other. A single one is a weight if it is a number, so a condition
that is printed alone must not be one; it is not, because it would have been read as a weight the first
time. A condition that always holds is not printed at all.
-/

namespace Arbor

open Token (skipGaps next? Apart)
open Numeral (Same)

namespace Rule

/-! ### The text of a rule in parts -/

/-- A left context and its mark. -/
def leftText (left : Option String) : String := left.elim "" (· ++ " < ")

/-- The names of parameters. -/
def namesText (params : List String) : String :=
  if params = [] then "" else "(" ++ ",".intercalate params ++ ")"

/-- A right context and its mark. -/
def rightText (right : Option String) : String := right.elim "" (" > " ++ ·)

/-- The section of an expression. -/
def sectionText (e : Expr) : String := " : " ++ e.text

/-- The sections of a condition and a weight. -/
def sectionsText (condition : Option Expr) (weight : Option Float) : String :=
  condition.elim "" sectionText ++ weight.elim "" fun v => sectionText (.num v)

/-- The arrow and a successor. -/
def successorText (us : List Template) : String := " -> " ++ String.join (us.map Template.text)

/-- The canonical text is made of the texts of its parts. -/
theorem canonicalText_eq (r : Rule) : r.canonicalText = leftText r.left ++ (r.predecessor ++
    (namesText r.params ++ (rightText r.right ++ (sectionsText r.condition r.weight ++
      successorText r.successor)))) := by
  unfold canonicalText leftText namesText rightText sectionsText successorText sectionText
  cases r.left <;> cases r.right <;> cases r.condition <;> cases r.weight <;>
    simp [String.append_assoc, Expr.text]

/-! ### Reading the parts -/

section Parts

variable {rest : List Char}

/-- A left context and the predecessor are read back. -/
theorem lexes_leftPart {written : Option (List Char)} {p : Char} (hp : isSymbolChar p = true)
    (hwritten : ∀ cs, written = some cs → ∀ c ∈ cs, isSymbolChar c = true)
    {left : Option String} (single : SingleContext written left) (rest : List Char) :
    ∃ ts, LeftPart ts written p ∧ Lexes ((leftText left).toList ++ p :: rest) ts rest := by
  unfold leftText
  cases single with
  | absent => exact ⟨_, .alone p, .one (.symbol hp rest)⟩
  | symbol c =>
    have hc := hwritten [c] rfl c List.mem_cons_self
    -- with one symbol before the predecessor, there are two marks of three characters
    have htext : (symbolName c ++ " < ").toList ++ p :: rest = c :: ' ' :: '<' :: ' ' :: p :: rest := by
      simp [symbolName]
    have hmark : (Terminal.mark .before).Next (' ' :: '<' :: ' ' :: p :: rest) (' ' :: p :: rest) := rfl
    have hsymbol : (Terminal.symbol p).Next (' ' :: p :: rest) rest :=
      (Terminal.Next.symbol hp rest).of_skipGaps rfl
    refine ⟨_, .after (List.cons_ne_nil c []) p, ?_⟩
    rw [Option.elim_some, htext]
    exact .cons (.symbol hc _) (.cons hmark (.one hsymbol))

/-- The parameters are read back, as names. -/
theorem lexes_names {params : List String} (hparams : ∀ a ∈ params, Token.Identifier a.toList)
    (rest : List Char) :
    ∃ ts, Parenthesized ParamName ts params ∧ Lexes ((namesText params).toList ++ rest) ts rest := by
  have hitem : ∀ a ∈ params, PrintsAs ParamName Eq id a := by
    intro a ha rest hrest
    -- a name ends where its item ends, and a truth word is a name here
    have hword := Token.next?_of_identifier_ends (hparams a ha)
      ((Token.lexeme_ofName (hparams a ha)).skipGaps_append rest) fun c hc => (hrest.apart c hc).1
    rw [String.ofList_toList] at hword
    exact ⟨_, a, .mk a, .one ⟨_, hword, Token.name?_ofName a⟩, rfl⟩
  obtain ⟨ts, bs, hlist, hlexes, hbs⟩ := lexes_parenthesized params hitem rest
  rw [List.forall₂_eq_eq_eq] at hbs
  obtain rfl := hbs
  rw [List.map_id] at hlexes
  exact ⟨ts, hlist, hlexes⟩

/-- A right context is read back. -/
theorem lexes_rightPart {written : Option (List Char)}
    (hwritten : ∀ cs, written = some cs → ∀ c ∈ cs, isSymbolChar c = true)
    {right : Option String} (single : SingleContext written right) (rest : List Char) :
    ∃ ts, RightPart ts written ∧ Lexes ((rightText right).toList ++ rest) ts rest := by
  unfold rightText
  cases single with
  | absent => exact ⟨[], .absent, .nil rest⟩
  | symbol c =>
    have hc := hwritten [c] rfl c List.mem_cons_self
    have htext : (" > " ++ symbolName c).toList ++ rest = ' ' :: '>' :: ' ' :: c :: rest := by
      simp [symbolName]
    have hmark : (Terminal.mark .after).Next (' ' :: '>' :: ' ' :: c :: rest) (' ' :: c :: rest) := rfl
    have hsymbol : (Terminal.symbol c).Next (' ' :: c :: rest) rest :=
      (Terminal.Next.symbol hc rest).of_skipGaps rfl
    refine ⟨_, .present (List.cons_ne_nil c []), ?_⟩
    rw [Option.elim_some, htext]
    exact .cons hmark (.one hsymbol)

/-- A row of one item. -/
theorem Repeated.one {α : Type} {Item : List Terminal → α → Prop} {ts : List Terminal} {a : α}
    (item : Item ts a) : Repeated Item ts [a] := by
  simpa using Repeated.cons item .nil

/-- An expression that is printed as a section is read back as one. -/
theorem lexes_section {e : Expr} (he : e.Printable) (hrest : Apart rest) :
    ∃ ts f, SectionPart ts (.expr f) ∧ Lexes ((sectionText e).toList ++ rest) ts rest ∧
      Expr.Agrees f e.reread := by
  obtain ⟨ts, f, hphrase, hlexes, hagrees⟩ := lexes_expr he hrest
  have htext : (sectionText e).toList ++ rest = ' ' :: ':' :: ' ' :: (e.text.toList ++ rest) := by
    simp [sectionText]
  have hcolon : (Terminal.token .colon).Next (' ' :: ':' :: ' ' :: (e.text.toList ++ rest))
      (' ' :: (e.text.toList ++ rest)) := rfl
  -- the blank after the colon is skipped with the first terminal of the expression
  obtain ⟨t, us, rfl, -⟩ := hphrase.exists_head
  obtain ⟨mid, hfirst, hmore⟩ := hlexes.exists_of_cons
  rw [htext]
  exact ⟨_, f, .expr hphrase, .cons hcolon (.cons (hfirst.of_skipGaps rfl) hmore), hagrees⟩

/-- A weight is printed and read as an expression that is a number. -/
theorem lexes_weight {v : Float} (hv : v.isFinite = true) (hrest : Apart rest) :
    ∃ ts v', SectionPart ts (.expr (.num v')) ∧
      Lexes ((sectionText (.num v)).toList ++ rest) ts rest ∧ Same v' v := by
  obtain ⟨ts, f, hpart, hlexes, hagrees⟩ := lexes_section (Expr.printable_num hv) hrest
  cases hagrees with
  | num numbers => exact ⟨ts, _, hpart, hlexes, numbers⟩

/-- **Sections.** What the printed sections state agrees with what was stated. A condition is read as
a weight only if it is a number, and then a weight follows it. -/
theorem lexes_sections {sections : List Section} {condition : Option Expr} {weight : Option Float}
    (stated : Stated sections condition weight)
    (hcondition : ∀ e, condition = some e → e.Printable ∧ e.NoNegativeBase)
    (hweight : ∀ v, weight = some v → v.isFinite = true) (hrest : Apart rest) :
    ∃ ts sections' condition' weight', Repeated SectionPart ts sections' ∧
      Lexes ((sectionsText condition weight).toList ++ rest) ts rest ∧
      Stated sections' condition' weight' ∧ Option.Rel Expr.Agrees condition' condition ∧
      Option.Rel Same weight' weight := by
  unfold sectionsText
  cases stated with
  | nothing | always => exact ⟨[], [], none, none, .nil, .nil rest, .nothing, .none, .none⟩
  | weight v | alwaysWeighted v =>
    -- `*` is not printed, so in both cases the weight stands alone
    obtain ⟨ts, v', hpart, hlexes, hsame⟩ := lexes_weight (hweight v rfl) hrest
    exact ⟨_, _, none, some v', .one hpart, hlexes, .weight v', .none, .some hsame⟩
  | @condition e no_number =>
    obtain ⟨hprintable, hbase⟩ := hcondition e rfl
    obtain ⟨ts, f, hpart, hlexes, hagrees⟩ := lexes_section hprintable hrest
    rw [hbase.reread_eq] at hagrees
    -- a number that stands alone would be a weight
    have hnumber : ∀ v, f ≠ .num v := by
      rintro v rfl
      cases hagrees with
      | num numbers => exact no_number _ rfl
    rw [Option.elim_some, Option.elim_none, String.append_empty]
    exact ⟨_, _, some f, none, .one hpart, hlexes, .condition hnumber, .some hagrees, .none⟩
  | weighted e v =>
    obtain ⟨hprintable, hbase⟩ := hcondition e rfl
    obtain ⟨us, v', hpart', hmore, hsame⟩ := lexes_weight (hweight v rfl) hrest
    have hgap : Apart ((sectionText (.num v)).toList ++ rest) := by
      rw [sectionText, String.toList_append]
      exact Token.apart_cons (by decide)
    obtain ⟨ts, f, hpart, hlexes, hagrees⟩ := lexes_section hprintable hgap
    rw [hbase.reread_eq] at hagrees
    rw [Option.elim_some, Option.elim_some, String.toList_append, List.append_assoc]
    exact ⟨_, _, some f, some v', .cons hpart (.one hpart'), hlexes.append hmore, .weighted f v',
      .some hagrees, .some hsame⟩

/-- The arrow and the templates after it. -/
theorem lexes_successor {us : List Template} (h : ∀ t ∈ us, t.Printable) :
    ∃ ts us' rest, Repeated TemplatePart ts us' ∧
      Lexes (successorText us).toList (.token .arrow :: ts) rest ∧ skipGaps rest = [] ∧
      List.Forall₂ (fun t' t => t'.Agrees t.reread) us' us := by
  obtain ⟨ts, us', hrow, hlexes, hagree⟩ := lexes_templates h
  have htext : (successorText us).toList = ' ' :: '-' :: '>' :: ' ' ::
      (String.join (us.map Template.text)).toList := by
    simp [successorText]
  have harrow : ∀ cs, (Terminal.token .arrow).Next (' ' :: '-' :: '>' :: cs) cs := fun cs => rfl
  obtain ⟨rest, hmore, hrest⟩ := hlexes.of_skipGaps
    (show skipGaps (' ' :: (String.join (us.map Template.text)).toList) = _ from rfl)
  rw [htext]
  exact ⟨ts, us', rest, hrow, .cons (harrow _) hmore, hrest, hagree⟩

end Parts

/-! ### Rules printed and read -/

/-- The expressions in a rule: its condition and the arguments in its successor. -/
def expressions (r : Rule) : List Expr := r.condition.toList ++ r.successor.flatMap Template.args

/-- A rule that can be printed so that its text stands for it. -/
structure Printable (r : Rule) : Prop where
  expressions : ∀ e ∈ r.expressions, e.Printable ∧ e.NoNegativeBase
  weight : ∀ v, r.weight = some v → v.isFinite = true

/-- **Agreement.** The same rule with the same numbers. -/
structure Agrees (r s : Rule) : Prop where
  predecessor : r.predecessor = s.predecessor
  params : r.params = s.params
  left : r.left = s.left
  right : r.right = s.right
  condition : Option.Rel Expr.Agrees r.condition s.condition
  weight : Option.Rel Same r.weight s.weight
  successor : List.Forall₂ Template.Agrees r.successor s.successor

/-- Optional values are equal if the values are. -/
theorem beq_of_rel {α : Type} [BEq α] {R : α → α → Prop} {o p : Option α} (h : Option.Rel R o p)
    (hR : ∀ a b, p = some b → R a b → (a == b) = true) : (o == p) = true := by
  cases h with
  | none => rfl
  | some values => exact hR _ _ rfl values

section Printed

variable {r s : Rule} {w : Written}

/-- The expressions of a rule are its condition and the arguments of its successor. -/
theorem mem_expressions {e : Expr} :
    e ∈ r.expressions ↔ r.condition = some e ∨ ∃ t ∈ r.successor, e ∈ t.args := by
  rw [expressions, List.mem_append, Option.mem_toList, List.mem_flatMap]

/-- The text of templates without a negative base stands for them. -/
theorem Printable.reread_eq (h : r.Printable) {t : Template} (ht : t ∈ r.successor) :
    t.reread = t := by
  have hargs : t.args.map Expr.reread = t.args :=
    (List.map_congr_left fun e he =>
      (h.expressions e (mem_expressions.2 (.inr ⟨t, ht, he⟩))).2.reread_eq).trans (List.map_id _)
  rw [Template.reread, hargs]

/-- **The text of a rule made of its parts** has parts again, whose verdict is a rule that agrees. -/
theorem exists_reading_of_verdict (hlegible : w.Legible) (hverdict : Verdict w (.ok r))
    (h : r.Printable) :
    ∃ w' r', Reading r.canonicalText w' ∧ Verdict w' (.ok r') ∧ r'.Agrees r := by
  cases hverdict with
  | @rule condition weight left right distinct stated positive single single' =>
    have hcondition : ∀ e, condition = some e → e.Printable ∧ e.NoNegativeBase := fun e he =>
      h.expressions e (mem_expressions.2 (.inl he))
    have hsuccessor : ∀ t ∈ w.successor, t.Printable := fun t ht =>
      ⟨(hlegible.successor t ht).1, fun e he =>
        (h.expressions e (mem_expressions.2 (.inr ⟨t, ht, he⟩))).1⟩
    -- the parts from the last to the first, because each is read with what follows it
    obtain ⟨u, successor', rest, hsuccessor', hlexes₅, hgaps, hagree⟩ := lexes_successor hsuccessor
    have hapart : Apart (successorText w.successor).toList := by
      rw [successorText, String.toList_append]
      exact Token.apart_cons (by decide)
    obtain ⟨s, sections', condition', weight', hsections, hlexes₄, stated', hcondition', hweight'⟩ :=
      lexes_sections stated hcondition h.weight hapart
    obtain ⟨t, hright, hlexes₃⟩ := lexes_rightPart hlegible.right single' _
    obtain ⟨b, hnames, hlexes₂⟩ := lexes_names hlegible.params _
    obtain ⟨l, hleft, hlexes₁⟩ := lexes_leftPart hlegible.predecessor hlegible.left single _
    have hlexes := hlexes₁.append (hlexes₂.append (hlexes₃.append (hlexes₄.append hlexes₅)))
    -- the verdict on the parts that were read is again a rule
    have hpositive' : ∀ v', weight' = some v' → ¬ v' ≤ 0.0 := by
      rintro v' rfl
      cases hweight' with
      | some hsame => exact fun hle => positive _ rfl ((hsame.le_iff (.refl 0.0)).1 hle)
    have hreread : w.successor.map Template.reread = w.successor :=
      (List.map_congr_left fun t ht => h.reread_eq ht).trans (List.map_id _)
    let w' : Written := ⟨w.left, w.predecessor, w.params, w.right, sections', successor'⟩
    have hsentence : Sentence _ w' := .mk hleft hnames hright hsections hsuccessor'
    refine ⟨w', _, reading_iff_lexes.2 ⟨_, rest, ?_, hgaps, hsentence⟩,
      .rule distinct stated' hpositive' single single', ?_⟩
    · rw [canonicalText_eq]
      simpa [String.toList_append, symbolName] using hlexes
    · exact ⟨rfl, rfl, rfl, rfl, hcondition', hweight', by
        rw [← List.forall₂_map_right_iff] at hagree
        rwa [hreread] at hagree⟩

/-- A rule agrees with itself. -/
theorem Agrees.refl (r : Rule) : r.Agrees r := by
  refine ⟨rfl, rfl, rfl, rfl, ?_, ?_, List.forall₂_same.2 fun t _ => .refl t⟩
  · cases r.condition with
    | none => exact .none
    | some e => exact .some (.refl e)
  · cases r.weight with
    | none => exact .none
    | some v => exact .some (.refl v)

/-- **Defined.** The expressions are legible and the weight is a number, as in a rule that was read. -/
structure Defined (r : Rule) : Prop where
  expressions : ∀ e ∈ r.expressions, e.Legible
  weight : ∀ v, r.weight = some v → v.isNaN = false

/-- Rules that agree say the same, where the numbers are defined. -/
theorem Agrees.sameAs (h : r.Agrees s) (hs : s.Defined) : r.sameAs s = true := by
  have hexpression : ∀ e ∈ s.expressions, ∀ v ∈ e.literals, v.isNaN = false := fun e he =>
    (hs.expressions e he).isNaN_eq_false
  have hcondition : (r.condition == s.condition) = true :=
    beq_of_rel h.condition fun e f hf hagrees =>
      hagrees.beq (hexpression f (mem_expressions.2 (.inl hf)))
  -- weights are numbers, so that one equals itself
  have hweight : (r.weight == s.weight) = true :=
    beq_of_rel h.weight fun v w hw hsame => hsame.beq (hs.weight w hw)
  have hsuccessor : (r.successor == s.successor) = true :=
    beq_of_forall₂ h.successor fun t u hu hagrees =>
      hagrees.beq fun f hf => hexpression f (mem_expressions.2 (.inr ⟨u, hu, hf⟩))
  -- the test of all fields, with the source left out
  have hbeq : r.sameAs s = (r.predecessor == s.predecessor && (r.params == s.params &&
      (r.left == s.left && (r.right == s.right && (r.condition == s.condition &&
        (r.weight == s.weight && (r.successor == s.successor && true))))))) := by
    cases r
    cases s
    rfl
  rw [hbeq, hcondition, hweight, hsuccessor, h.predecessor, h.params, h.left, h.right]
  simp only [beq_self_eq_true, Bool.and_self]

/-- The literals and the weight of a rule that is read are numbers. -/
theorem defined_of_verdict (hlegible : w.Legible) (hverdict : Verdict w (.ok r)) : r.Defined := by
  cases hverdict with
  | rule _ stated =>
    obtain ⟨hcondition, hnumber⟩ := stated.legible hlegible.sections
    refine ⟨fun e he => ?_, hnumber⟩
    rcases mem_expressions.1 he with h | ⟨t, ht, h⟩
    · exact hcondition e h
    · exact (hlegible.successor t ht).2 e h

/-- A rule that was read can be printed, if no number in it is infinite and no negative literal is
raised to a power. -/
theorem Defined.printable (h : r.Defined)
    (hfinite : ∀ e ∈ r.expressions, ∀ v ∈ e.literals, v.isInf = false)
    (hweight : ∀ v, r.weight = some v → v.isInf = false)
    (hbase : ∀ e ∈ r.expressions, e.NoNegativeBase) : r.Printable := by
  refine ⟨fun e he => ⟨⟨h.expressions e he, fun v hv => ?_⟩, hbase e he⟩, fun v hv => ?_⟩
  · have hnumber := (h.expressions e he).isNaN_eq_false v hv
    exact Numeral.isFinite_of_isNaN_of_isInf hnumber (hfinite e he v hv)
  · exact Numeral.isFinite_of_isNaN_of_isInf (h.weight v hv) (hweight v hv)

/-- **The text of a rule made of its parts** is a rule again, and says the same, if no number in it is
infinite and no negative literal is raised to a power. -/
theorem parse_canonicalText {s : String} (h : parse s = .ok r)
    (hfinite : ∀ e ∈ r.expressions, ∀ v ∈ e.literals, v.isInf = false)
    (hweight : ∀ v, r.weight = some v → v.isInf = false)
    (hbase : ∀ e ∈ r.expressions, e.NoNegativeBase) :
    ∃ r', parse r.unsourced.text = .ok r' ∧ r'.sameAs r = true := by
  obtain ⟨w, r₀, hlegible, hverdict, rfl⟩ := exists_written_of_parse h
  have hdefined := defined_of_verdict hlegible hverdict
  have hprintable : r₀.Printable := hdefined.printable hfinite hweight hbase
  obtain ⟨w', r', hreading, hverdict', hagrees⟩ :=
    exists_reading_of_verdict hlegible hverdict hprintable
  exact ⟨_, parse_of_verdict hreading hverdict', hagrees.sameAs hdefined⟩

/-- A rule with every part and a patch, with a minus to either side of `^`. -/
theorem parse_canonicalText_patch :
    ∃ r r', parse "A<B(x)>C : -x^-1 < 1 : .5 -> ~L(2-x)F" = .ok r ∧
      r.unsourced.text = "A < B(x) > C : ((-(x ^ -1)) < 1) : 0.5 -> ~L((2 - x))F" ∧
      parse "A < B(x) > C : ((-(x ^ -1)) < 1) : 0.5 -> ~L((2 - x))F" = .ok r' ∧
      r'.sameAs r = true := by
  let condition : Expr := .bin .lt (.neg (.bin .pow (.var "x") (.num (-1.0)))) (.num 1.0)
  let arg : Expr := .bin .sub (.num 2.0) (.var "x")
  let r : Rule := {
    predecessor := "B", params := ["x"], left := some "A", right := some "C"
    condition := some condition, weight := some 0.5
    successor := [⟨"L", [arg], true⟩, ⟨"F", [], false⟩]
    source := some "A<B(x)>C : -x^-1 < 1 : .5 -> ~L(2-x)F" }
  have hparse : parse "A<B(x)>C : -x^-1 < 1 : .5 -> ~L(2-x)F" = .ok r := by decide +kernel
  have htext : r.unsourced.text = "A < B(x) > C : ((-(x ^ -1)) < 1) : 0.5 -> ~L((2 - x))F" := by
    decide +kernel
  have hexpressions : r.expressions = [condition, arg] := rfl
  have hfinite : ∀ e ∈ r.expressions, ∀ v ∈ e.literals, v.isInf = false := by decide +kernel
  have hweight : ∀ v, r.weight = some v → v.isInf = false := by
    rintro v ⟨⟩
    decide +kernel
  have hname : ¬ (Expr.var "x").Negative := by
    rintro ⟨v, hv, -⟩
    cases hv
  have hcondition : condition.NoNegativeBase := ⟨nofun, ⟨fun _ => hname, trivial, trivial⟩, trivial⟩
  have harg : arg.NoNegativeBase := ⟨nofun, trivial, trivial⟩
  have hbase : ∀ e ∈ r.expressions, e.NoNegativeBase := by
    rw [hexpressions]
    intro e he
    rcases List.mem_pair.1 he with rfl | rfl
    · exact hcondition
    · exact harg
  obtain ⟨r', hr', hsame⟩ := parse_canonicalText hparse hfinite hweight hbase
  rw [htext] at hr'
  exact ⟨r, r', hparse, htext, hr', hsame⟩

end Printed

end Rule

end Arbor
