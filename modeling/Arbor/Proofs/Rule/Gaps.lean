import Arbor.Proofs.Rule.Plain
import Arbor.Proofs.Rule.Printing

/-!
# Gaps in the text of a rule

The spaces and tabs in the text of a rule carry no meaning. If any of them are left out
(`Text.Sparser`), what is left is the text of an equal rule (`Rule.parse_of_sparser`); so it is when
all of them are (`Text.packed`), and when the text is trimmed. Two rules whose texts differ in gaps
only are equal therefore, and the text that a rule keeps is read as that rule (`Rule.parse_packed`).

That leaving out a gap glues no two terminals together is the work of the phases. No lexeme has a gap
in it, so what is left out stood between two lexemes, and after the first of them the phase still
awaits what follows (`Lexes.awaits`). A terminal that the phase allows never prolongs the lexeme before
it (`Terminal.next_of_lexeme`). So the readers find the same terminals (`Lexes.of_sparser`).

The converse fails. A gap that is put into the text may split a lexeme, as in `- >` or `1 2`.
-/

namespace Arbor

open Token (skipGaps)

namespace Text

/-! ### Leaving out gaps -/

/-- A text without its gaps. -/
def packed (s : String) : String := String.ofList (s.toList.filter fun c => !isGap c)

/-- **Sparser.** The second text with some of its gaps left out. -/
inductive Sparser : List Char → List Char → Prop
  | nil : Sparser [] []
  | keep (c : Char) {as bs : List Char} (rest : Sparser as bs) : Sparser (c :: as) (c :: bs)
  | drop {c : Char} {as bs : List Char} (gap : isGap c = true) (rest : Sparser as bs) :
      Sparser as (c :: bs)

section Sparser

variable {as bs cs ds : List Char}

/-- A text with all its gaps. -/
theorem Sparser.refl (cs : List Char) : Sparser cs cs := by
  induction cs with
  | nil => exact .nil
  | cons c cs ih => exact .keep c ih

/-- Gaps may be left out of two pieces at once. -/
theorem Sparser.append (h : Sparser as bs) (h' : Sparser cs ds) : Sparser (as ++ cs) (bs ++ ds) := by
  induction h with
  | nil => exact h'
  | keep c _ ih => exact .keep c ih
  | drop gap _ ih => exact .drop gap ih

/-- Of gaps all may be left out. -/
theorem sparser_nil (h : ∀ c ∈ bs, isGap c = true) : Sparser [] bs := by
  induction bs with
  | nil => exact .nil
  | cons c bs ih =>
    obtain ⟨hc, hbs⟩ := List.forall_mem_cons.1 h
    exact .drop hc (ih hbs)

/-- A packed text is the sparsest one. -/
theorem sparser_packed (s : String) : Sparser (packed s).toList s.toList := by
  rw [packed, String.toList_ofList]
  induction s.toList with
  | nil => exact .nil
  | cons c cs ih =>
    cases hc : isGap c with
    | true => simpa [hc] using Sparser.drop hc ih
    | false => simpa [hc] using Sparser.keep c ih

/-- Trimming leaves out gaps, where there are no other blanks. -/
theorem sparser_trimmed (h : ∀ c ∈ cs, isBlank c = true → isGap c = true) :
    Sparser (trimmed cs) cs := by
  obtain ⟨before, after, hbefore, hafter, hcs⟩ := exists_blank_around cs
  -- what is trimmed away is part of the text, so that its blanks are gaps
  have hmem : ∀ c, c ∈ before ∨ c ∈ after → c ∈ cs := by
    intro c hc
    rw [hcs]
    rcases hc with hc | hc <;> simp [hc]
  have hstart : Sparser [] before :=
    sparser_nil fun c hc => h c (hmem c (.inl hc)) (hbefore c hc)
  have hend : Sparser [] after := sparser_nil fun c hc => h c (hmem c (.inr hc)) (hafter c hc)
  have htext := (hstart.append (.refl (trimmed cs))).append hend
  rwa [← hcs, List.nil_append, List.append_nil] at htext

/-- What is left of a text is what is left of its parts. -/
theorem Sparser.exists_append (h : Sparser cs (as ++ bs)) :
    ∃ as' bs', cs = as' ++ bs' ∧ Sparser as' as ∧ Sparser bs' bs := by
  induction as generalizing cs with
  | nil => exact ⟨[], cs, rfl, .nil, h⟩
  | cons a as ih =>
    cases h with
    | keep _ rest =>
      obtain ⟨as', bs', rfl, has, hbs⟩ := ih rest
      exact ⟨a :: as', bs', rfl, .keep a has, hbs⟩
    | drop gap rest =>
      obtain ⟨as', bs', rfl, has, hbs⟩ := ih rest
      exact ⟨as', bs', rfl, .drop gap has, hbs⟩

/-- Where there are no gaps, none are left out. -/
theorem Sparser.eq_of_no_gap (h : Sparser as bs) (hbs : ∀ c ∈ bs, isGap c = false) : as = bs := by
  induction h with
  | nil => rfl
  | keep c _ ih => rw [ih (List.forall_mem_cons.1 hbs).2]
  | drop gap _ _ =>
    rw [(List.forall_mem_cons.1 hbs).1] at gap
    cases gap

/-- What is all gaps has nothing but gaps after some are left out. -/
theorem Sparser.forall_gap (h : Sparser as bs) (hbs : ∀ c ∈ bs, isGap c = true) :
    ∀ c ∈ as, isGap c = true := by
  induction h with
  | nil => exact hbs
  | keep c _ ih =>
    obtain ⟨hc, hrest⟩ := List.forall_mem_cons.1 hbs
    exact List.forall_mem_cons.2 ⟨hc, ih hrest⟩
  | drop _ _ ih => exact ih (List.forall_mem_cons.1 hbs).2

/-- A lexeme that stands next is still there, and stands next. -/
theorem Sparser.skipGaps {l mid : List Char} (h : Sparser cs ds) (hl : l ≠ [])
    (hgap : ∀ c ∈ l, isGap c = false) (hds : skipGaps ds = l ++ mid) :
    ∃ mid', Token.skipGaps cs = l ++ mid' ∧ Sparser mid' mid := by
  -- gaps may go before the lexeme, and nothing may go within it
  have hsplit : ds = ds.takeWhile isGap ++ (l ++ mid) := by
    rw [← hds, Token.skipGaps, List.takeWhile_append_dropWhile]
  rw [hsplit] at h
  obtain ⟨gaps, rest, rfl, hgaps, hrest⟩ := h.exists_append
  obtain ⟨l', mid', rfl, hl', hmid⟩ := hrest.exists_append
  obtain rfl := hl'.eq_of_no_gap hgap
  have hskip := hgaps.forall_gap fun c hc => List.mem_takeWhile_imp hc
  obtain ⟨c, l, rfl⟩ := List.exists_cons_of_ne_nil hl
  refine ⟨mid', ?_, hmid⟩
  rw [Token.skipGaps, List.dropWhile_append_of_pos hskip]
  exact Token.skipGaps_cons (hgap c List.mem_cons_self) (l ++ mid')

end Sparser

end Text

open Text (Sparser packed)

/-! ### The same terminals -/

section Lexes

variable {ts : List Terminal} {cs cs' rest : List Char} {ph ph' : Phase}

/-- A phase awaits the text whose terminals lead on from it. -/
theorem Lexes.awaits (h : Lexes cs ts rest) (hrest : skipGaps rest = [])
    (hrun : ph.run ts = some ph') : ph.Awaits cs := by
  cases h with
  | nil => exact .inl hrest
  | cons first _ =>
    obtain ⟨l, hl, hcs⟩ := first.exists_lexeme
    rw [Phase.run_cons, Option.bind_eq_some_iff] at hrun
    obtain ⟨ph₁, hnext, -⟩ := hrun
    exact .inr ⟨_, ph₁, l, _, hnext, hl, hcs⟩

/-- **Leaving out gaps** does not change what terminals the readers find, where these lead through
the phases of a rule. -/
theorem Lexes.of_sparser (h : Lexes cs ts rest) (hrest : skipGaps rest = [])
    (hrun : ph.run ts = some ph') (hsparser : Sparser cs' cs) :
    ∃ rest', Lexes cs' ts rest' ∧ skipGaps rest' = [] := by
  induction h generalizing ph cs' with
  | nil cs =>
    have hgaps := hsparser.forall_gap fun c hc => List.dropWhile_eq_nil_iff.1 hrest c hc
    exact ⟨cs', .nil cs', List.dropWhile_eq_nil_iff.2 hgaps⟩
  | cons first _ ih =>
    obtain ⟨l, hl, hcs⟩ := first.exists_lexeme
    rw [Phase.run_cons, Option.bind_eq_some_iff] at hrun
    obtain ⟨ph₁, hnext, hrun⟩ := hrun
    have hgap : ∀ c ∈ l, Text.isGap c = false := fun c hc =>
      not_isGap_of_not_isBlank (hl.not_isBlank c hc)
    obtain ⟨mid', hcs', hmid⟩ := hsparser.skipGaps hl.ne_nil hgap hcs
    -- what is left behind the terminal has the same terminals, so the phase after it awaits them
    obtain ⟨rest', hlexes, hrest'⟩ := ih hrest hrun hmid
    have hawaits := hlexes.awaits hrest' hrun
    exact ⟨rest', .cons (Terminal.next_of_lexeme hnext hl hcs' hawaits) hlexes, hrest'⟩

end Lexes

namespace Rule

variable {s t : String} {w : Written} {r : Rule}

/-- A rule is read without the gaps too, as the same rule. -/
theorem Reading.of_sparser (h : Reading s w) (hsparser : Sparser t.toList s.toList) :
    Reading t w := by
  -- whether a text has a reading is seen from its terminals, and gaps are in none of them
  obtain ⟨ts, rest, hlexes, hrest, hsentence⟩ := reading_iff_lexes.1 h
  obtain ⟨rest', hlexes', hrest'⟩ := hlexes.of_sparser hrest hsentence.run hsparser
  exact reading_iff_lexes.2 ⟨ts, rest', hlexes', hrest', hsentence⟩

/-! ### The same rule -/

/-- **With gaps left out** a text is parsed as the same rule, which keeps the new text. -/
theorem parse_of_sparser (h : parse s = .ok r) (hsparser : Sparser t.toList s.toList) :
    parse t = .ok { r with source := some (Text.trim t) } := by
  obtain ⟨w, r₀, hreading, hverdict, rfl⟩ := exists_reading_of_parse h
  have hparse := parse_of_verdict (hreading.of_sparser hsparser) hverdict
  exact hparse

/-- A rule that was read says the same as every rule that differs from it in the text only. -/
theorem sameAs_of_parse {q : Rule} (h : parse s = .ok r) (hq : q.unsourced = r.unsourced) :
    q.sameAs r = true := by
  obtain ⟨w, r₀, hlegible, hverdict, rfl⟩ := exists_written_of_parse h
  have hself := (Agrees.refl r₀).sameAs (defined_of_verdict hlegible hverdict)
  rw [sameAs, hq]
  exact hself

/-- The text of a rule that was read has no blanks but gaps. -/
theorem isGap_of_parse (h : parse s = .ok r) :
    ∀ c ∈ s.toList, Text.isBlank c = true → Text.isGap c = true := by
  obtain ⟨w, r₀, hreading, -, -⟩ := exists_reading_of_parse h
  obtain ⟨ts, rest, hlexes, hrest, -⟩ := reading_iff_lexes.1 hreading
  exact isGap_of_lexes hlexes hrest

/-- Trimming leaves a rule, since it takes off gaps only. -/
theorem parse_trim (h : parse s = .ok r) : parse (Text.trim s) = .ok r := by
  have hsparser : Sparser (Text.trim s).toList s.toList := by
    rw [Text.trim, String.toList_ofList]
    exact Text.sparser_trimmed (isGap_of_parse h)
  have htrim : Text.trim (Text.trim s) = Text.trim s := by
    rw [Text.trim, Text.trim, String.toList_ofList, (Text.bare_trimmed _).trimmed_eq]
  have hparse := parse_of_sparser h hsparser
  obtain ⟨w, r₀, -, -, rfl⟩ := exists_reading_of_parse h
  rwa [htrim] at hparse

/-- **Gaps carry no meaning.** Without its gaps the text of a rule is parsed again, as an equal rule.
Rules whose texts differ in gaps only are equal. The text that a rule keeps is parsed as that rule. -/
theorem parse_packed :
    (∀ s r, parse s = .ok r →
      ∃ q, parse (packed s) = .ok q ∧ q.unsourced = r.unsourced ∧ q.sameAs r = true) ∧
    (∀ s t r q, packed s = packed t → parse s = .ok r → parse t = .ok q →
      q.unsourced = r.unsourced ∧ q.sameAs r = true) ∧
    ∀ s r, parse s = .ok r → parse r.text = .ok r := by
  refine ⟨fun s r h => ?_, fun s t r q hpacked h h' => ?_, fun s r h => ?_⟩
  · exact ⟨_, parse_of_sparser h (Text.sparser_packed s), rfl, sameAs_of_parse h rfl⟩
  · -- both are read as their packed text is, which is one text
    have hs := parse_of_sparser h (Text.sparser_packed s)
    have ht := parse_of_sparser h' (Text.sparser_packed t)
    rw [← hpacked, hs] at ht
    have hunsourced : q.unsourced = r.unsourced :=
      (congrArg unsourced (Except.ok.inj ht)).symm
    exact ⟨hunsourced, sameAs_of_parse h hunsourced⟩
  · have htext : r.text = Text.trim s := by
      obtain ⟨w, r₀, -, -, rfl⟩ := exists_reading_of_parse h
      rfl
    rw [htext]
    exact parse_trim h

/-- A minus between two contexts stays a predecessor when it comes to touch the marks and the
arrow. -/
theorem parse_packed_minus :
    ∃ r p q, parse "\tA < - > B : 2 - 1 < 3 -> - A " = .ok r ∧
      parse "A<-> B:2 -1<3->-A" = .ok p ∧ p.sameAs r = true ∧
      packed "\tA < - > B : 2 - 1 < 3 -> - A " = "A<->B:2-1<3->-A" ∧
      parse "A<->B:2-1<3->-A" = .ok q ∧ q.sameAs r = true ∧
      parse "A < - > B : 2 - 1 < 3 -> - A" = .ok r := by
  let r : Rule := {
    predecessor := "-", left := some "A", right := some "B"
    condition := some (.bin .lt (.bin .sub (.num 2.0) (.num 1.0)) (.num 3.0))
    successor := [⟨"-", [], false⟩, ⟨"A", [], false⟩]
    source := some "A < - > B : 2 - 1 < 3 -> - A" }
  -- the same rule, read from a text with other gaps
  let p : Rule := { r with source := some "A<-> B:2 -1<3->-A" }
  have hparse : parse "\tA < - > B : 2 - 1 < 3 -> - A " = .ok r := by decide +kernel
  have hother : parse "A<-> B:2 -1<3->-A" = .ok p := by decide +kernel
  have htext : packed "\tA < - > B : 2 - 1 < 3 -> - A " = "A<->B:2-1<3->-A" := by decide +kernel
  have hpacked : packed "\tA < - > B : 2 - 1 < 3 -> - A " = packed "A<-> B:2 -1<3->-A" := by
    decide +kernel
  obtain ⟨q, hq, -, hsame⟩ := parse_packed.1 _ r hparse
  obtain ⟨-, hagree⟩ := parse_packed.2.1 _ _ r p hpacked hparse hother
  rw [htext] at hq
  exact ⟨r, p, q, hparse, hother, hagree, htext, hq, hsame, parse_packed.2.2 _ r hparse⟩

end Rule

end Arbor
