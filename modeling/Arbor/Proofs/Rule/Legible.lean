import Arbor.Proofs.Rule.Templates
import Arbor.Proofs.Rule.Verdict

/-!
# What is read can be written

A rule that was read has parts that can be written again (`Rule.Written.Legible`): its names are
symbols and words, and the expressions in it are legible. This is so because every terminal was taken
from the text (`Terminal.Spelled`), and it goes through the grammar part by part; a list has the
property if its items do (`Rule.Listed.forall_mem` and so on).
-/

namespace Arbor

/-- A terminal that can be written. -/
def Terminal.Spelled (t : Terminal) : Prop := ∃ l, t.Lexeme l

namespace Rule

/-! ### The parts of a rule that was read -/

section Spelled

variable {α : Type} {Item : List Terminal → α → Prop} {P : α → Prop} {ts : List Terminal} {as : List α}

/-- The sign of a symbol is one that symbols have. -/
theorem isSymbolChar_of_spelled {c : Char} (h : (Terminal.symbol c).Spelled) :
    isSymbolChar c = true := by
  obtain ⟨l, hl⟩ := h
  cases hl
  assumption

/-- What holds of each item holds of all members of a list. -/
theorem Listed.forall_mem (h : Listed Item ts as)
    (hitem : ∀ ts a, Item ts a → (∀ t ∈ ts, t.Spelled) → P a) (hts : ∀ t ∈ ts, t.Spelled) :
    ∀ a ∈ as, P a := by
  induction h with
  | one item =>
    intro a ha
    obtain rfl := List.mem_singleton.1 ha
    exact hitem _ _ item hts
  | more item _ ih =>
    intro a ha
    rcases List.mem_cons.1 ha with rfl | ha
    · exact hitem _ _ item fun t ht => hts t (List.mem_append_left _ ht)
    · exact ih (fun t ht => hts t (List.mem_append_right _ (List.mem_cons_of_mem _ ht))) a ha

/-- The same for a list in parentheses, or none. -/
theorem Parenthesized.forall_mem (h : Parenthesized Item ts as)
    (hitem : ∀ ts a, Item ts a → (∀ t ∈ ts, t.Spelled) → P a) (hts : ∀ t ∈ ts, t.Spelled) :
    ∀ a ∈ as, P a := by
  cases h with
  | absent | empty => exact fun a ha => absurd ha List.not_mem_nil
  | list items =>
    exact items.forall_mem hitem fun t ht => hts t (List.mem_cons_of_mem _ (List.mem_append_left _ ht))

/-- The same for items that follow each other. -/
theorem Repeated.forall_mem (h : Repeated Item ts as)
    (hitem : ∀ ts a, Item ts a → (∀ t ∈ ts, t.Spelled) → P a) (hts : ∀ t ∈ ts, t.Spelled) :
    ∀ a ∈ as, P a := by
  induction h with
  | nil => exact fun a ha => absurd ha List.not_mem_nil
  | cons item _ ih =>
    intro a ha
    rcases List.mem_cons.1 ha with rfl | ha
    · exact hitem _ _ item fun t ht => hts t (List.mem_append_left _ ht)
    · exact ih (fun t ht => hts t (List.mem_append_right _ ht)) a ha

/-- Expressions are legible, by the lexemes that they are read from. -/
theorem Phrase.legible {e : Expr} (h : Phrase ts e) (hts : ∀ t ∈ ts, t.Spelled) : e.Legible := by
  obtain ⟨derives⟩ := h
  refine derives.legible fun t ht => ?_
  obtain ⟨l, hl⟩ := hts _ (List.mem_map_of_mem ht)
  exact ⟨l, hl.of_token⟩

/-- Parameters are identifiers. -/
theorem ParamName.identifier {s : String} (h : ParamName ts s) (hts : ∀ t ∈ ts, t.Spelled) :
    Token.Identifier s.toList := by
  cases h
  obtain ⟨l, hl⟩ := hts _ List.mem_cons_self
  cases hl with
  | param identifier => rwa [String.toList_ofList]

/-- A section that was read: an expression in it is legible. -/
def Section.Legible (s : Section) : Prop := ∀ e, s = .expr e → e.Legible

/-- The expression of a section is legible, if it has one. -/
theorem SectionPart.legible {s : Section} (h : SectionPart ts s) (hts : ∀ t ∈ ts, t.Spelled) :
    s.Legible := by
  cases h with
  | always => exact fun e he => by cases he
  | expr phrase =>
    rintro e ⟨⟩
    exact phrase.legible fun t ht => hts t (List.mem_cons_of_mem _ ht)

/-- A template has a proper name and legible arguments. -/
theorem TemplatePart.legible {t : Template} (h : TemplatePart ts t) (hts : ∀ t ∈ ts, t.Spelled) :
    ProperName t.name ∧ ∀ e ∈ t.args, e.Legible := by
  cases h with
  | plain c list =>
    -- the sign is the first terminal, and all others are of the arguments
    exact ⟨⟨c, isSymbolChar_of_spelled (hts _ List.mem_cons_self), rfl⟩,
      list.forall_mem (fun _ _ => Phrase.legible) fun t ht => hts t (List.mem_cons_of_mem _ ht)⟩
  | patch c list =>
    exact ⟨⟨c, isSymbolChar_of_spelled (hts _ (List.mem_cons_of_mem _ List.mem_cons_self)), rfl⟩,
      list.forall_mem (fun _ _ => Phrase.legible) fun t ht =>
        hts t (List.mem_cons_of_mem _ (List.mem_cons_of_mem _ ht))⟩

/-- The predecessor and the neighbours before it are of proper signs. -/
theorem LeftPart.legible {left : Option (List Char)} {p : Char} (h : LeftPart ts left p)
    (hts : ∀ t ∈ ts, t.Spelled) :
    isSymbolChar p = true ∧ ∀ cs, left = some cs → ∀ c ∈ cs, isSymbolChar c = true := by
  cases h with
  | alone p => exact ⟨isSymbolChar_of_spelled (hts _ List.mem_cons_self), fun cs hcs => by cases hcs⟩
  | after nonempty p =>
    refine ⟨isSymbolChar_of_spelled (hts _ (by simp)), ?_⟩
    -- the signs before the mark are those of the context
    rintro cs ⟨⟩ c hc
    exact isSymbolChar_of_spelled (hts _ (List.mem_append_left _ (List.mem_map_of_mem hc)))

/-- So are the neighbours after it. -/
theorem RightPart.legible {right : Option (List Char)} (h : RightPart ts right)
    (hts : ∀ t ∈ ts, t.Spelled) : ∀ cs, right = some cs → ∀ c ∈ cs, isSymbolChar c = true := by
  cases h with
  | absent => exact fun cs hcs => by cases hcs
  | present nonempty =>
    rintro cs ⟨⟩ c hc
    exact isSymbolChar_of_spelled (hts _ (List.mem_cons_of_mem _ (List.mem_map_of_mem hc)))

end Spelled

/-- What legible sections state is legible, and no weight is undefined. -/
theorem Stated.legible {sections : List Section} {condition : Option Expr} {weight : Option Float}
    (h : Stated sections condition weight) (hs : ∀ s ∈ sections, s.Legible) :
    (∀ e, condition = some e → e.Legible) ∧ ∀ v, weight = some v → v.isNaN = false := by
  -- what a section states is the expression in it
  have hexpr : ∀ e, .expr e ∈ sections → e.Legible := fun e he => hs _ he e rfl
  cases h with
  | nothing | always => exact ⟨nofun, nofun⟩
  | weight v =>
    refine ⟨nofun, ?_⟩
    rintro _ ⟨⟩
    exact hexpr (.num v) (by simp)
  | alwaysWeighted v =>
    refine ⟨nofun, ?_⟩
    rintro _ ⟨⟩
    exact hexpr (.num v) (by simp)
  | @condition e no_number =>
    refine ⟨?_, nofun⟩
    rintro _ ⟨⟩
    exact hexpr e (by simp)
  | weighted e v =>
    constructor
    · rintro _ ⟨⟩
      exact hexpr e (by simp)
    · rintro _ ⟨⟩
      exact hexpr (.num v) (by simp)

/-- **Legible parts.** Symbols are symbols, names of parameters are words, and expressions are such as
are parsed. -/
structure Written.Legible (w : Written) : Prop where
  left : ∀ cs, w.left = some cs → ∀ c ∈ cs, isSymbolChar c = true
  predecessor : isSymbolChar w.predecessor = true
  params : ∀ a ∈ w.params, Token.Identifier a.toList
  right : ∀ cs, w.right = some cs → ∀ c ∈ cs, isSymbolChar c = true
  sections : ∀ s ∈ w.sections, s.Legible
  successor : ∀ t ∈ w.successor, ProperName t.name ∧ ∀ e ∈ t.args, e.Legible

/-- A rule is legible because its parts are. -/
theorem Sentence.legible {ts : List Terminal} {w : Written} (h : Sentence ts w)
    (hts : ∀ t ∈ ts, t.Spelled) : w.Legible := by
  cases h with
  | @mk l b r s u w left params right sections successor =>
    -- the terminals of each part are among those of the whole
    have hl : ∀ t ∈ l, t.Spelled := fun t ht => hts t (by simp [ht])
    have hb : ∀ t ∈ b, t.Spelled := fun t ht => hts t (by simp [ht])
    have hr : ∀ t ∈ r, t.Spelled := fun t ht => hts t (by simp [ht])
    have hs : ∀ t ∈ s, t.Spelled := fun t ht => hts t (by simp [ht])
    have hu : ∀ t ∈ u, t.Spelled := fun t ht => hts t (by simp [ht])
    exact {
      left := (left.legible hl).2
      predecessor := (left.legible hl).1
      params := params.forall_mem (fun _ _ => ParamName.identifier) hb
      right := right.legible hr
      sections := sections.forall_mem (fun _ _ => SectionPart.legible) hs
      successor := successor.forall_mem (fun _ _ => TemplatePart.legible) hu }

/-- What is read from a text is spelled there. -/
theorem spelled_of_lexes {ts : List Terminal} {cs rest : List Char} (h : Lexes cs ts rest) :
    ∀ t ∈ ts, t.Spelled := by
  refine h.forall_mem fun t cs rest hnext => ?_
  obtain ⟨l, hl, -⟩ := hnext.exists_lexeme
  exact ⟨l, hl⟩

/-- **A rule that was read** comes from legible parts, whose verdict it is. -/
theorem exists_written_of_parse {s : String} {r : Rule} (h : parse s = .ok r) :
    ∃ (w : Written) (r₀ : Rule), w.Legible ∧ Verdict w (.ok r₀) ∧
      r = { r₀ with source := some (Text.trim s) } := by
  obtain ⟨w, r₀, hreading, hverdict, rfl⟩ := exists_reading_of_parse h
  obtain ⟨ts, rest, hlexes, -, hsentence⟩ := reading_iff_lexes.1 hreading
  exact ⟨w, r₀, hsentence.legible (spelled_of_lexes hlexes), hverdict, rfl⟩

end Rule

end Arbor
