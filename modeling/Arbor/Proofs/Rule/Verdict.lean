import Arbor.Proofs.Outcome
import Arbor.Proofs.Rule.Reading
import Mathlib.Data.List.Induction

/-!
# What becomes of the text of a rule

A text that has not the form of a rule is malformed. One that has it is judged by its parts
(`Rule.Verdict`): the names of the parameters come first, then the number of the sections, the
second section, the weight, the left context and the right one; if nothing is wrong with any of them
the text is a rule. Each verdict says what it asks of the parts, so of all but the first it says
that the earlier ones do not apply.

* `Rule.Verdict.toRule`: a verdict is what `Written.toRule` makes of the parts;
* `Rule.exists_verdict`: the parts of a text have one;
* `Rule.parse_verdict`: so much for the text.
-/

namespace Arbor.Rule

open Text (trim)

/-! ### Verdicts -/

/-- **What the sections state**: of two sections the first is the condition and the second the
weight. A single number is a weight, and anything else by itself a condition; `*` is a condition
that is not there. -/
inductive Stated : List Section → Option Expr → Option Float → Prop
  | nothing : Stated [] none none
  | weight (v : Float) : Stated [.expr (.num v)] none (some v)
  | condition {e : Expr} (no_number : ∀ v, e ≠ .num v) : Stated [.expr e] (some e) none
  | always : Stated [.always] none none
  | weighted (e : Expr) (v : Float) : Stated [.expr e, .expr (.num v)] (some e) (some v)
  | alwaysWeighted (v : Float) : Stated [.always, .expr (.num v)] none (some v)

/-- A context of one symbol, or none at all. -/
inductive SingleContext : Option (List Char) → Option String → Prop
  | absent : SingleContext none none
  | symbol (c : Char) : SingleContext (some [c]) (some (symbolName c))

/-- **Verdict.** What becomes of the parts `w`. -/
inductive Verdict (w : Written) : Except Flaw Rule → Prop
  | duplicate {before after : List String} {name : String}
      (split : w.params = before ++ name :: after) (distinct : before.Nodup)
      (repeated : name ∈ before) : Verdict w (.error (.duplicate name))
  | tooManySections (distinct : w.params.Nodup) (many : 2 < w.sections.length) :
      Verdict w (.error .tooManySections)
  | weightExpected {s t : Section} (distinct : w.params.Nodup) (two : w.sections = [s, t])
      (no_number : ∀ v, t ≠ .expr (.num v)) : Verdict w (.error .weightExpected)
  | weightNotPositive {condition : Option Expr} {v : Float} (distinct : w.params.Nodup)
      (stated : Stated w.sections condition (some v)) (not_positive : v ≤ 0.0) :
      Verdict w (.error .weightNotPositive)
  | leftContext {condition : Option Expr} {weight : Option Float} {cs : List Char}
      (distinct : w.params.Nodup) (stated : Stated w.sections condition weight)
      (positive : ∀ v, weight = some v → ¬ v ≤ 0.0)
      (left : w.left = some cs) (several : 1 < cs.length) : Verdict w (.error (.leftContext cs))
  | rightContext {condition : Option Expr} {weight : Option Float} {left : Option String}
      {cs : List Char} (distinct : w.params.Nodup) (stated : Stated w.sections condition weight)
      (positive : ∀ v, weight = some v → ¬ v ≤ 0.0) (single : SingleContext w.left left)
      (right : w.right = some cs) (several : 1 < cs.length) : Verdict w (.error (.rightContext cs))
  | rule {condition : Option Expr} {weight : Option Float} {left right : Option String}
      (distinct : w.params.Nodup) (stated : Stated w.sections condition weight)
      (positive : ∀ v, weight = some v → ¬ v ≤ 0.0) (single : SingleContext w.left left)
      (single' : SingleContext w.right right) :
      Verdict w (.ok {
        predecessor := symbolName w.predecessor
        params := w.params
        left, right, condition, weight
        successor := w.successor })

/-! ### Repeated names -/

section Names

variable {seen as before after : List String} {name : String}

/-- Different names repeat none. -/
theorem firstRepeated?_eq_none (h : as.Nodup) (hseen : ∀ a ∈ as, a ∉ seen) :
    firstRepeated? seen as = none := by
  induction as generalizing seen with
  | nil => rfl
  | cons a as ih =>
    obtain ⟨ha, has⟩ := List.nodup_cons.1 h
    rw [firstRepeated?, if_neg (hseen a (by simp))]
    refine ih has fun b hb => ?_
    rw [List.mem_cons, not_or]
    exact ⟨fun hba => ha (hba ▸ hb), hseen b (List.mem_cons_of_mem a hb)⟩

/-- The first name that stood before is found. -/
theorem firstRepeated?_eq_some (h : before.Nodup) (hseen : ∀ a ∈ before, a ∉ seen)
    (hname : name ∈ before ∨ name ∈ seen) :
    firstRepeated? seen (before ++ name :: after) = some name := by
  induction before generalizing seen with
  | nil =>
    have hmem : name ∈ seen := by simpa using hname
    rw [List.nil_append, firstRepeated?, if_pos hmem]
  | cons a before ih =>
    obtain ⟨ha, hbefore⟩ := List.nodup_cons.1 h
    rw [List.cons_append, firstRepeated?, if_neg (hseen a (by simp))]
    refine ih hbefore (fun b hb => ?_) ?_
    · rw [List.mem_cons, not_or]
      exact ⟨fun hba => ha (hba ▸ hb), hseen b (List.mem_cons_of_mem a hb)⟩
    · -- the name stands before this one, is this one, or has been seen
      simp only [List.mem_cons] at hname ⊢
      tauto

/-- Among names that are not all distinct one is the first to repeat another. -/
theorem exists_first_repeated (h : ¬ as.Nodup) :
    ∃ before name after, as = before ++ name :: after ∧ before.Nodup ∧ name ∈ before := by
  -- from the end, because a name repeats one that stands before it
  induction as using List.reverseRecOn with
  | nil => exact absurd List.nodup_nil h
  | append_singleton as a ih =>
    by_cases has : as.Nodup
    · by_cases ha : a ∈ as
      · exact ⟨as, a, [], rfl, has, ha⟩
      · refine absurd (List.nodup_append.2 ⟨has, by simp, fun b hb c hc hbc => ha ?_⟩) h
        rw [List.mem_singleton] at hc
        exact hc ▸ hbc ▸ hb
    · obtain ⟨before, name, after, rfl, hbefore, hname⟩ := ih has
      exact ⟨before, name, after ++ [a], by simp, hbefore, hname⟩

end Names

/-! ### From the parts to the verdict -/

section Parts

variable {w : Written} {sections : List Section} {condition : Option Expr} {weight : Option Float}

/-- What sections state is what is made of them. -/
theorem Stated.conditionAndWeight_eq (h : Stated sections condition weight) :
    conditionAndWeight sections = .ok (condition, weight) := by
  cases h with
  | @condition e no_number =>
    cases e with
    | num v => exact absurd rfl (no_number v)
    | _ => rfl
  | _ => rfl

/-- Only a number is a weight. -/
theorem weight?_eq_none {s : Section} (h : ∀ v, s ≠ .expr (.num v)) : s.weight? = none := by
  cases s with
  | always => rfl
  | expr e =>
    cases e with
    | num v => exact absurd rfl (h v)
    | _ => rfl

/-- Three sections are too many. -/
theorem conditionAndWeight_of_many (h : 2 < sections.length) :
    conditionAndWeight sections = .error .tooManySections := by
  match sections, h with
  | _ :: _ :: _ :: _, _ => rfl

/-- Sections state something, or there are too many, or the second is no number. -/
theorem sections_cases (sections : List Section) :
    2 < sections.length ∨ (∃ s t, sections = [s, t] ∧ ∀ v, t ≠ .expr (.num v)) ∨
      ∃ condition weight, Stated sections condition weight := by
  match sections with
  | [] => exact .inr (.inr ⟨_, _, .nothing⟩)
  | [.always] => exact .inr (.inr ⟨_, _, .always⟩)
  | [.expr e] =>
    -- one section is a weight if it is a number, and a condition otherwise
    by_cases he : ∃ v, e = .num v
    · obtain ⟨v, rfl⟩ := he
      exact .inr (.inr ⟨_, _, .weight v⟩)
    · exact .inr (.inr ⟨_, _, .condition fun v hv => he ⟨v, hv⟩⟩)
  | [s, t] =>
    -- of two sections the second has to be a number
    by_cases ht : ∃ v, t = .expr (.num v)
    · obtain ⟨v, rfl⟩ := ht
      cases s with
      | always => exact .inr (.inr ⟨_, _, .alwaysWeighted v⟩)
      | expr e => exact .inr (.inr ⟨_, _, .weighted e v⟩)
    · exact .inr (.inl ⟨s, t, rfl, fun v hv => ht ⟨v, hv⟩⟩)
  | _ :: _ :: _ :: _ => exact .inl (by simp)

/-- A context of one symbol, or none, is taken as it is. -/
theorem SingleContext.eq {written : Option (List Char)} {name : Option String}
    (h : SingleContext written name) (flaw : List Char → Flaw) :
    singleContext flaw written = .ok name := by
  cases h <;> rfl

/-- A context of several symbols is a flaw. -/
theorem singleContext_of_several {cs : List Char} (h : 1 < cs.length) (flaw : List Char → Flaw) :
    singleContext flaw (some cs) = .error (flaw cs) := by
  match cs, h with
  | _ :: _ :: _, _ => rfl

/-- A context with a symbol in it has one or several. -/
theorem context_cases {written : Option (List Char)} (h : written ≠ some []) :
    (∃ name, SingleContext written name) ∨ ∃ cs, written = some cs ∧ 1 < cs.length := by
  match written with
  | none => exact .inl ⟨_, .absent⟩
  | some [] => exact absurd rfl h
  | some [c] => exact .inl ⟨_, .symbol c⟩
  | some (_ :: _ :: _) => exact .inr ⟨_, rfl, by simp⟩

/-- Where the names are distinct and the sections state something, the weight and the contexts
decide. -/
theorem toRule_of_stated (distinct : w.params.Nodup) (stated : Stated w.sections condition weight) :
    w.toRule =
      if weight.any (· ≤ 0.0) then .error .weightNotPositive
      else do
        let left ← singleContext .leftContext w.left
        let right ← singleContext .rightContext w.right
        return {
          predecessor := symbolName w.predecessor
          params := w.params
          left, right, condition, weight
          successor := w.successor } := by
  have hnames : firstRepeated? [] w.params = none := firstRepeated?_eq_none distinct (by simp)
  simp only [Written.toRule, hnames, stated.conditionAndWeight_eq, Outcome.ok_bind]
  -- what is left to test are the weight and the two contexts, in this order
  split
  · rfl
  · rfl

/-- A verdict is what becomes of the parts. -/
theorem Verdict.toRule {v : Except Flaw Rule} (h : Verdict w v) : w.toRule = v := by
  -- the test of the weight, as the verdicts after it have it
  have hpositive : ∀ {weight : Option Float}, (∀ v, weight = some v → ¬ v ≤ 0.0) →
      weight.any (· ≤ 0.0) = false := by
    intro weight h
    cases weight with
    | none => rfl
    | some v => simpa using h v rfl
  cases h with
  | @duplicate before after name split distinct repeated =>
    have hname : firstRepeated? [] w.params = some name := by
      rw [split]
      exact firstRepeated?_eq_some distinct (by simp) (.inl repeated)
    simp only [Written.toRule, hname]
    rfl
  | tooManySections distinct many =>
    have hnames : firstRepeated? [] w.params = none := firstRepeated?_eq_none distinct (by simp)
    simp only [Written.toRule, hnames, conditionAndWeight_of_many many]
    rfl
  | weightExpected distinct two no_number =>
    have hnames : firstRepeated? [] w.params = none := firstRepeated?_eq_none distinct (by simp)
    simp only [Written.toRule, hnames, two, conditionAndWeight, weight?_eq_none no_number]
    rfl
  | weightNotPositive distinct stated not_positive =>
    rw [toRule_of_stated distinct stated, if_pos (by simpa using not_positive)]
  | leftContext distinct stated positive left several =>
    rw [toRule_of_stated distinct stated, hpositive positive, left, singleContext_of_several several]
    rfl
  | rightContext distinct stated positive single right several =>
    rw [toRule_of_stated distinct stated, hpositive positive, single.eq, right,
      singleContext_of_several several]
    rfl
  | rule distinct stated positive single single' =>
    rw [toRule_of_stated distinct stated, hpositive positive, single.eq, single'.eq]
    rfl

/-- Parts whose contexts are not empty have a verdict. -/
theorem exists_verdict (hleft : w.left ≠ some []) (hright : w.right ≠ some []) :
    ∃ v, Verdict w v := by
  -- the first test that applies gives the verdict, and those before it are what it asks for
  by_cases distinct : w.params.Nodup
  · rcases sections_cases w.sections with many | ⟨s, t, two, no_number⟩ | ⟨condition, weight, stated⟩
    · exact ⟨_, .tooManySections distinct many⟩
    · exact ⟨_, .weightExpected distinct two no_number⟩
    · by_cases not_positive : ∃ v, weight = some v ∧ v ≤ 0.0
      · obtain ⟨v, rfl, hv⟩ := not_positive
        exact ⟨_, .weightNotPositive distinct stated hv⟩
      · have positive : ∀ v, weight = some v → ¬ v ≤ 0.0 :=
          fun v hv hle => not_positive ⟨v, hv, hle⟩
        rcases context_cases hleft with ⟨left, single⟩ | ⟨cs, left, several⟩
        · rcases context_cases hright with ⟨right, single'⟩ | ⟨cs, right, several⟩
          · exact ⟨_, .rule distinct stated positive single single'⟩
          · exact ⟨_, .rightContext distinct stated positive single right several⟩
        · exact ⟨_, .leftContext distinct stated positive left several⟩
  · obtain ⟨before, name, after, split, hbefore, repeated⟩ := exists_first_repeated distinct
    exact ⟨_, .duplicate split hbefore repeated⟩

end Parts

/-! ### The text of a rule -/

/-- A context that is written has a symbol in it. -/
theorem Reading.contexts_ne_nil {s : String} {w : Written} (h : Reading s w) :
    w.left ≠ some [] ∧ w.right ≠ some [] := by
  obtain ⟨ts, -, hsentence⟩ := h
  cases hsentence with
  | @mk l b r s u w left params right sections successor =>
    -- both contexts are fields of `w`, and no variables to split on
    generalize hl : w.left = written at left
    generalize hr : w.right = written' at right
    constructor
    · cases left with
      | alone => simp
      | after nonempty => simpa using nonempty
    · cases right with
      | absent => simp
      | present nonempty => simpa using nonempty

/-- **A rule that was read** is the verdict on the parts of its text, and keeps that text. -/
theorem exists_reading_of_parse {s : String} {r : Rule} (h : parse s = .ok r) :
    ∃ (w : Written) (r₀ : Rule), Reading s w ∧ Verdict w (.ok r₀) ∧
      r = { r₀ with source := some (trim s) } := by
  unfold parse at h
  split at h
  · exact absurd h (by simp)
  next w hw =>
  have hreading := (reading_iff s w).2 hw
  obtain ⟨v, hv⟩ := exists_verdict hreading.contexts_ne_nil.1 hreading.contexts_ne_nil.2
  rw [hv.toRule] at h
  split at h
  · exact absurd h (by simp)
  next r₀ =>
  obtain rfl := Except.ok.inj h
  exact ⟨w, r₀, hreading, hv, rfl⟩

/-- A text is parsed as the rule that its parts make. -/
theorem parse_of_verdict {s : String} {w : Written} {r : Rule} (hw : Reading s w)
    (hv : Verdict w (.ok r)) : parse s = .ok { r with source := some (trim s) } := by
  simp only [parse, (reading_iff s w).1 hw, hv.toRule]

/-- **Parsing.** A text that has not the form of a rule is malformed. The parts of one that has it
have a verdict, and that is what becomes of the text: a flaw is reported with the text, and a rule
keeps the text without the blanks around it. -/
theorem parse_verdict (s : String) :
    ((¬ ∃ w, Reading s w) → parse s = .error ⟨.malformed, s⟩) ∧
      ∀ w, Reading s w →
        (∃ v, Verdict w v) ∧
          (∀ flaw, Verdict w (.error flaw) → parse s = .error ⟨flaw, s⟩) ∧
          (∀ r, Verdict w (.ok r) → parse s = .ok { r with source := some (trim s) }) := by
  constructor
  · intro hnone
    -- the grammar of rules and the reader agree on which texts are rules
    have hread : Written.ofChars? s.toList = none := by
      rw [Option.eq_none_iff_forall_not_mem]
      intro w hw
      exact hnone ⟨w, (reading_iff s w).2 hw⟩
    simp only [parse, hread]
  · intro w hw
    have hread := (reading_iff s w).1 hw
    obtain ⟨hleft, hright⟩ := hw.contexts_ne_nil
    refine ⟨exists_verdict hleft hright, ?_, ?_⟩
    · intro flaw hv
      simp only [parse, hread, hv.toRule]
    · intro r hv
      simp only [parse, hread, hv.toRule]

/-- A text with every part of a rule, one with three flaws, the first of them a repeated name, and one
without an arrow. -/
theorem parse_verdict_growth :
    parse "B < A(x) : x < 3 : 2 -> A(x+1)" = .ok {
        predecessor := "A", params := ["x"], left := some "B"
        condition := some (.bin .lt (.var "x") (.num 3.0)), weight := some 2.0
        successor := [⟨"A", [.bin .add (.var "x") (.num 1.0)], false⟩]
        source := some "B < A(x) : x < 3 : 2 -> A(x+1)" } ∧
      parse "BC < A(x, x) : 0 -> A" = .error ⟨.duplicate "x", "BC < A(x, x) : 0 -> A"⟩ ∧
      parse "A" = .error ⟨.malformed, "A"⟩ := by
  let leaf : Template := ⟨"A", [.bin .add (.var "x") (.num 1.0)], false⟩
  let condition : Expr := .bin .lt (.var "x") (.num 3.0)
  refine ⟨?_, ?_, ?_⟩
  · let w : Written :=
      ⟨some ['B'], 'A', ["x"], none, [.expr condition, .expr (.num 2.0)], [leaf]⟩
    have hreading : Reading "B < A(x) : x < 3 : 2 -> A(x+1)" w :=
      (reading_iff _ _).2 (by decide +kernel)
    have hpositive : ∀ v, some 2.0 = some v → ¬ v ≤ (0.0 : Float) := by
      rintro v ⟨⟩
      decide +kernel
    exact ((parse_verdict _).2 w hreading).2.2 _ (.rule (by decide) (.weighted condition 2.0)
      hpositive (.symbol 'B') .absent)
  · let w : Written :=
      ⟨some ['B', 'C'], 'A', ["x", "x"], none, [.expr (.num 0.0)], [⟨"A", [], false⟩]⟩
    have hreading : Reading "BC < A(x, x) : 0 -> A" w := (reading_iff _ _).2 (by decide +kernel)
    have hsplit : ["x", "x"] = ["x"] ++ "x" :: [] := rfl
    exact ((parse_verdict _).2 w hreading).2.1 _
      (.duplicate hsplit (by decide) (by decide))
  · refine (parse_verdict "A").1 ?_
    rintro ⟨w, hreading⟩
    have hnone : Written.ofChars? "A".toList = none := by decide +kernel
    rw [(reading_iff _ _).1 hreading] at hnone
    exact absurd hnone (by simp)

end Arbor.Rule
