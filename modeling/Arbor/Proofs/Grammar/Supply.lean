import Arbor.Grammar.Reader
import Arbor.Proofs.Outcome
import Arbor.Proofs.Reach
import Arbor.Proofs.Text.Lines
import Mathlib.Data.List.Forall2

/-!
# Ways of supplying rules

The rules of a grammar may be supplied as one text or as several, and several texts may be taken for
lines or be cut into lines. It makes no difference (`Grammar.read_agree`): the rules are those of the
texts joined by line feeds, and the number of a line with a flaw is counted there, blank lines and
comments included. Texts that end in a line end are left out. Such a text and the line feed after it
make one line more, or, after a carriage return, not even that.

The reason is that rules are read from numbered lines, and that numbering goes on from one row of
lines to the next (`rulesOfLines_append`). What a supply counts for, which is one line for an empty
text, is what it takes up in the joined text (`Grammar.suppliedRules_text`). Whatever the way, the error
is that of the first line with a flaw (`rulesOfLines_eq_error_iff`).
-/

namespace Arbor

open Outcome

/-- Whether a line holds a rule: it is no blank line and no comment. -/
def HoldsRule (line : String) : Prop := Text.isSkipped (Text.trim line).toList = false

instance (line : String) : Decidable (HoldsRule line) := inferInstanceAs (Decidable (_ = _))

/-- **First flaw.** In lines numbered from `first` on, line `n` holds a rule with a flaw, and no line
before it does. -/
def FirstFlaw (first : Nat) (lines : List String) (n : Nat) (cause : Rule.Error) : Prop :=
  ∃ k line, n = first + k ∧ lines[k]? = some line ∧ HoldsRule line ∧
    Rule.parse (Text.trim line) = .error cause ∧
    ∀ earlier ∈ lines.take k, HoldsRule earlier → ∃ r, Rule.parse (Text.trim earlier) = .ok r

section Lines

variable {first : Nat}

@[simp] theorem rulesOfLines_nil : rulesOfLines first [] = .ok [] := rfl

/-- A line with no rule only counts. -/
theorem rulesOfLines_cons_of_skipped {line : String} (h : ¬ HoldsRule line) (rest : List String) :
    rulesOfLines first (line :: rest) = rulesOfLines (first + 1) rest := by
  rw [rulesOfLines, ruleLines, if_pos (by simpa [HoldsRule] using h), ← rulesOfLines]

/-- Blank lines hold no rule. -/
theorem rulesOfLines_of_blank {lines : List String} (h : ∀ line ∈ lines, Text.trim line = "") (n : Nat) :
    rulesOfLines n lines = .ok [] := by
  induction lines generalizing n with
  | nil => rfl
  | cons line lines ih =>
    have hskipped : ¬ HoldsRule line := by
      rw [HoldsRule, h line List.mem_cons_self]
      decide
    rw [rulesOfLines_cons_of_skipped hskipped]
    exact ih (fun l hl => h l (List.mem_cons_of_mem line hl)) (n + 1)

/-- A line with a rule is read before the others. -/
theorem rulesOfLines_cons_of_holdsRule {line : String} (h : HoldsRule line) (rest : List String) :
    rulesOfLines first (line :: rest) = (do
      let r ← (Rule.parse (Text.trim line)).mapError (.ruleAt first)
      return r :: (← rulesOfLines (first + 1) rest)) := by
  rw [rulesOfLines, ruleLines, if_neg (by simpa [HoldsRule] using h), List.mapM_cons]
  rfl

/-- **Rows of lines**, the second numbered from where the first ends. -/
theorem rulesOfLines_append (first : Nat) (lines more : List String) :
    rulesOfLines first (lines ++ more) = (do
      let rules ← rulesOfLines first lines
      return rules ++ (← rulesOfLines (first + lines.length) more)) := by
  -- every line leaves the rest of its row a number further
  induction lines generalizing first with
  | nil => exact (bind_pure (rulesOfLines first more)).symm
  | cons line lines ih =>
    have hnumber : first + (line :: lines).length = first + 1 + lines.length := by
      rw [List.length_cons, Nat.add_assoc, Nat.add_comm 1]
    rw [List.cons_append, hnumber]
    by_cases h : HoldsRule line
    · rw [rulesOfLines_cons_of_holdsRule h, rulesOfLines_cons_of_holdsRule h, ih]
      simp
    · rw [rulesOfLines_cons_of_skipped h, rulesOfLines_cons_of_skipped h, ih]

/-- An empty line holds no rule. -/
@[simp] theorem rulesOfLines_blank : rulesOfLines first [""] = .ok [] :=
  rulesOfLines_cons_of_skipped (by decide) []

/-- The first flaw of lines is in the first one, or that one has none. -/
theorem firstFlaw_cons_iff {line : String} {rest : List String} {n : Nat} {cause : Rule.Error} :
    FirstFlaw first (line :: rest) n cause ↔
      (HoldsRule line ∧ Rule.parse (Text.trim line) = .error cause ∧ n = first) ∨
        ((HoldsRule line → ∃ r, Rule.parse (Text.trim line) = .ok r) ∧
          FirstFlaw (first + 1) rest n cause) := by
  constructor
  · rintro ⟨k, found, rfl, hfound, hholds, hparse, hearlier⟩
    -- the first flaw is in the first line, or behind it
    cases k with
    | zero =>
      obtain rfl : line = found := Option.some.inj hfound
      exact .inl ⟨hholds, hparse, rfl⟩
    | succ k =>
      refine .inr ⟨hearlier line List.mem_cons_self, k, found, by omega, hfound, hholds, hparse, ?_⟩
      exact fun earlier he => hearlier earlier (List.mem_cons_of_mem line he)
  · rintro (⟨hholds, hparse, rfl⟩ | ⟨hline, k, found, rfl, hfound, hholds, hparse, hearlier⟩)
    · exact ⟨0, line, rfl, rfl, hholds, hparse, by simp⟩
    · refine ⟨k + 1, found, by omega, hfound, hholds, hparse, ?_⟩
      intro earlier he
      rcases List.mem_cons.1 he with rfl | he
      · exact hline
      · exact hearlier earlier he

/-- A rule in a row of lines is that of one of them. -/
theorem exists_line_of_mem {lines : List String} {rules : List Rule} {r : Rule}
    (h : rulesOfLines first lines = .ok rules) (hr : r ∈ rules) :
    ∃ line ∈ lines, HoldsRule line ∧ Rule.parse (Text.trim line) = .ok r := by
  induction lines generalizing first rules with
  | nil =>
    obtain rfl := Except.ok.inj h
    exact absurd hr List.not_mem_nil
  | cons line lines ih =>
    by_cases hholds : HoldsRule line
    · rw [rulesOfLines_cons_of_holdsRule hholds] at h
      obtain ⟨r₀, hr₀, h⟩ := bind_eq_ok_iff.1 h
      obtain ⟨others, hothers, h⟩ := bind_eq_ok_iff.1 h
      obtain rfl := Except.ok.inj h
      rcases List.mem_cons.1 hr with rfl | hr
      · -- the rule is that of the first line or of one behind it
        exact ⟨line, List.mem_cons_self, hholds, mapError_eq_ok_iff.1 hr₀⟩
      · obtain ⟨found, hmem, hfound⟩ := ih hothers hr
        exact ⟨found, List.mem_cons_of_mem line hmem, hfound⟩
    · rw [rulesOfLines_cons_of_skipped hholds] at h
      obtain ⟨found, hmem, hfound⟩ := ih h hr
      exact ⟨found, List.mem_cons_of_mem line hmem, hfound⟩

/-- **The error** of a row of lines is that of the first line with a flaw. -/
theorem rulesOfLines_eq_error_iff {lines : List String} {e : ReadError} :
    rulesOfLines first lines = .error e ↔
      ∃ n cause, e = .ruleAt n cause ∧ FirstFlaw first lines n cause := by
  induction lines generalizing first with
  | nil => simp [FirstFlaw]
  | cons line rest ih =>
    simp only [firstFlaw_cons_iff]
    by_cases h : HoldsRule line
    · rw [rulesOfLines_cons_of_holdsRule h, bind_eq_error_iff]
      cases hparse : Rule.parse (Text.trim line) with
      -- the first line is sound, so a flaw is behind it
      | ok r =>
        simp [h, bind_eq_error_iff, ih]
      | error cause =>
        simp only [mapError_error, Except.error.injEq, reduceCtorEq, false_and, exists_false, or_false,
          h, true_and, forall_const]
        constructor
        · intro he
          exact ⟨first, cause, he.symm, rfl, rfl⟩
        · rintro ⟨n, _, rfl, rfl, rfl⟩
          rfl
    · rw [rulesOfLines_cons_of_skipped h, ih]
      simp [h]

end Lines

namespace Grammar

/-- After the last supply there are no rules to add. -/
theorem suppliedRules_singleton (first : Nat) (s : Supply) :
    suppliedRules first [s] = s.rules first := by
  rw [suppliedRules]
  simp only [suppliedRules, ok_bind, List.append_nil]
  exact bind_pure (s.rules first)

/-- What several supplies give is what each of them gives, one after the other. -/
theorem exists_parts {first : Nat} {supplies : List Supply} {rules : List Rule}
    (h : suppliedRules first supplies = .ok rules) :
    ∃ parts, List.Forall₂ (fun s part => ∃ n, Supply.rules n s = .ok part) supplies parts ∧
      rules = parts.flatten := by
  induction supplies generalizing first rules with
  | nil => exact ⟨[], .nil, (Except.ok.inj h).symm⟩
  | cons s supplies ih =>
    obtain ⟨here, hhere, h⟩ := bind_eq_ok_iff.1 h
    obtain ⟨there, hthere, h⟩ := bind_eq_ok_iff.1 h
    obtain ⟨parts, hparts, rfl⟩ := ih hthere
    exact ⟨here :: parts, .cons ⟨first, hhere⟩ hparts, (Except.ok.inj h).symm⟩

/-- A rule that several supplies give is given by one of them. -/
theorem exists_supply_of_mem {first : Nat} {supplies : List Supply} {rules : List Rule} {r : Rule}
    (h : suppliedRules first supplies = .ok rules) (hr : r ∈ rules) :
    ∃ s ∈ supplies, ∃ n part, Supply.rules n s = .ok part ∧ r ∈ part := by
  obtain ⟨parts, hparts, rfl⟩ := exists_parts h
  obtain ⟨part, hpart, hr⟩ := List.mem_flatten.1 hr
  obtain ⟨s, hs, n, hrules⟩ := exists_of_forall₂ hparts.flip hpart
  exact ⟨s, hs, n, part, hrules, hr⟩

/-- What a supply counts for is what it takes up before another. -/
theorem rules_text_append (first : Nat) {s : String} (h : Text.Unfinished s) (t : String) :
    rulesOfLines first (Text.lines (s ++ "\n" ++ t)) = (do
      let rules ← (Supply.text s).rules first
      return rules ++ (← rulesOfLines (first + (Supply.text s).lineCount) (Text.lines t))) := by
  rw [Text.lines_append h, rulesOfLines_append]
  by_cases hempty : s = ""
  · -- it counts for one line and is one, the empty line in front of the line feed
    subst hempty
    rfl
  · have hlines : Text.lines s ≠ [] := by
      simpa [Text.lines, Text.splitLines_eq_nil_iff] using hempty
    have hcount : (Supply.text s).lineCount = (Text.lines s).length :=
      Nat.max_eq_left (List.length_pos_iff.2 hlines)
    rw [if_neg hempty, hcount]
    rfl

/-- The rules of several texts are those of the lines of the joined text. -/
theorem suppliedRules_text {items : List String} (h : ∀ s ∈ items, Text.Unfinished s) (first : Nat) :
    suppliedRules first (items.map .text) =
      rulesOfLines first (Text.lines ("\n".intercalate items)) := by
  -- no line feed follows the last text, so it is a case of its own
  match items with
  | [] => rfl
  | [s] =>
    rw [String.intercalate_singleton]
    exact suppliedRules_singleton first (.text s)
  | s :: s' :: rest =>
    have hrest := suppliedRules_text (fun t ht => h t (List.mem_cons_of_mem s ht))
      (first + (Supply.text s).lineCount)
    rw [String.intercalate_cons_cons, rules_text_append first (h s List.mem_cons_self), ← hrest]
    rfl

/-- A text with no line end in it is supplied as a line is. -/
theorem rules_text_of_single (first : Nat) {s : String} (h : Text.Single s) :
    (Supply.text s).rules first = rulesOfLines first [s] ∧ (Supply.text s).lineCount = 1 := by
  simp only [Supply.rules, Supply.lineCount, Text.lines_of_single h]
  by_cases hempty : s = ""
  · subst hempty
    exact ⟨rulesOfLines_blank.symm, rfl⟩
  · rw [if_neg hempty]
    exact ⟨rfl, rfl⟩

/-- The rules of several texts with no line end in them are those of the texts taken for lines. -/
theorem suppliedRules_of_single {items : List String} (h : ∀ s ∈ items, Text.Single s)
    (first : Nat) : suppliedRules first (items.map .text) = rulesOfLines first items := by
  induction items generalizing first with
  | nil => rfl
  | cons s rest ih =>
    obtain ⟨hrules, hcount⟩ := rules_text_of_single first (h s List.mem_cons_self)
    have hrest := ih (fun t ht => h t (List.mem_cons_of_mem s ht)) (first + 1)
    -- the rules of the first item are those of its one line
    calc suppliedRules first ((s :: rest).map .text)
      _ = (do
          let rules ← (Supply.text s).rules first
          return rules ++
            (← suppliedRules (first + (Supply.text s).lineCount) (rest.map .text))) := rfl
      _ = (do
          let rules ← rulesOfLines first [s]
          return rules ++ (← rulesOfLines (first + 1) rest)) := by rw [hrules, hcount, hrest]
      _ = rulesOfLines first (s :: rest) := (rulesOfLines_append first [s] rest).symm

/-- **Supply.** Rules may be supplied as texts that do not end in a line end, or as these texts joined
by line feeds: the outcome is the same grammar or the same error. The rules are those of the joined
text, whatever word the grammar starts from; if no text has a line end in it, they are also those of
the texts taken for lines. An error is that of the first line of the joined text that holds a rule with
a flaw, with the number of that line, where every line is counted. -/
theorem read_agree {start : String} {items : List String} (h : ∀ s ∈ items, Text.Unfinished s) :
    let joined := "\n".intercalate items
    read start (items.map .text) = read start [.text joined] ∧
    read start [.text joined] = (do
      let word ← Word.parse start
      return insertAll { start := word } (← rulesOfText joined)) ∧
    suppliedRules 1 (items.map .text) = rulesOfText joined ∧
    ((∀ s ∈ items, Text.Single s) → rulesOfLines 1 items = rulesOfText joined) ∧
    ∀ e, rulesOfText joined = .error e ↔
      ∃ n cause, e = .ruleAt n cause ∧ FirstFlaw 1 (Text.lines joined) n cause := by
  intro joined
  have hitems : suppliedRules 1 (items.map .text) = rulesOfText joined := suppliedRules_text h 1
  have hjoined : suppliedRules 1 [.text joined] = rulesOfText joined :=
    suppliedRules_singleton 1 (.text joined)
  refine ⟨?_, ?_, hitems, fun hsingle => ?_, fun e => rulesOfLines_eq_error_iff⟩
  · rw [read, read, hitems, hjoined]
  · rw [read, hjoined]
  · rw [← hitems, suppliedRules_of_single hsingle]

/-- A comment, an empty text, and a text of three lines whose last has a flaw; and lines without one. -/
theorem read_agree_fifth_line :
    let items := ["# algae", "", "A -> AB\n\nB -> A(", "C -> D"]
    let joined := "\n".intercalate items
    let e := ReadError.ruleAt 5 ⟨.malformed, "B -> A("⟩
    let plain := ["# algae", "A -> AB", "", "B -> A"]
    (read "A" (items.map .text) = .error e ∧ read "A" [.text joined] = .error e ∧
      ∃ n cause, e = .ruleAt n cause ∧ FirstFlaw 1 (Text.lines joined) n cause) ∧
    rulesOfLines 1 plain = rulesOfText ("\n".intercalate plain) ∧
      (rulesOfLines 1 plain).toOption.map List.length = some 2 := by
  intro items joined e plain
  obtain ⟨hread, -, -, -, hflaw⟩ := @read_agree "A" items (by decide +kernel)
  obtain ⟨-, -, -, hlines, -⟩ := @read_agree "A" plain (by decide +kernel)
  have hrules : rulesOfText joined = .error e := by decide +kernel
  have hjoined : read "A" [.text joined] = .error e := by decide +kernel
  exact ⟨⟨hread.trans hjoined, hjoined, (hflaw e).1 hrules⟩, hlines (by decide +kernel),
    by decide +kernel⟩

end Grammar

end Arbor
