import Arbor.Proofs.Rule.Legible
import Arbor.Proofs.Text.Blanks

/-!
# Plain rules

A rule that is nothing but a predecessor, an arrow and a successor is read off its text: what stands
after the arrow is read as a row of templates (`parse_plain`). Blanks in front of a row make no
difference to it, if it can be read with them (`ofChars?_of_blank_append`), for no lexeme has a blank in
it, and between lexemes only spaces and tabs are skipped (`isGap_of_lexes`).

In the other direction, a rule that has no left context starts with its predecessor
(`predecessor_of_parse`).
-/

namespace Arbor

open Token (skipGaps)

/-! ### Blanks in a row of templates -/

/-- The visible characters of ASCII. -/
def Graphic (c : Char) : Prop := 32 < c.toNat ∧ c.toNat < 127

instance (c : Char) : Decidable (Graphic c) := inferInstanceAs (Decidable (_ ∧ _))

/-- No graphic character is blank. -/
theorem Graphic.not_isBlank {c : Char} (h : Graphic c) : Text.isBlank c = false := by
  obtain ⟨hlow, hhigh⟩ := h
  simp only [Text.isBlank, Bool.or_eq_false_iff, Bool.and_eq_false_iff, decide_eq_false_iff_not]
  omega

/-- The characters of names are graphic. -/
theorem graphic_of_isNameRest {c : Char} (h : Token.isNameRest c = true) : Graphic c := by
  change 32 < c.val.toNat ∧ c.val.toNat < 127
  simp only [Token.isNameRest, Char.isAlphanum, Char.isAlpha, Char.isUpper, Char.isLower,
    Char.isDigit, UInt32.le_iff_toNat_le, Bool.or_eq_true, Bool.and_eq_true, decide_eq_true_eq,
    Char.reduceVal, UInt32.reduceToNat] at h
  rcases h with h | rfl
  · omega
  · decide

/-- So are those that names begin with. -/
theorem graphic_of_isNameStart {c : Char} (h : Token.isNameStart c = true) : Graphic c := by
  refine graphic_of_isNameRest ?_
  simp only [Token.isNameStart, Token.isNameRest, Char.isAlphanum, Char.isAlpha, Bool.or_eq_true] at *
  tauto

/-- So are digits. -/
theorem graphic_of_isDigit {c : Char} (h : c.isDigit = true) : Graphic c :=
  graphic_of_isNameRest (by simp [Token.isNameRest, Char.isAlphanum, h])

/-- Numerals are written in graphic characters. -/
theorem Numeral.graphic {l : List Char} {d : Decimal} (h : Numeral l d) : ∀ c ∈ l, Graphic c := by
  obtain ⟨m, ds, places, x, e, hm, hx, rfl, -⟩ := h
  intro c hc
  rcases List.mem_append.1 hc with hc | hc
  · cases hm with
    | whole digits => exact graphic_of_isDigit (digits c hc)
    -- digits on both sides of a point
    | pointed whole fraction =>
      rcases List.mem_append.1 hc with hc | hc
      · exact graphic_of_isDigit (whole c hc)
      · rcases List.mem_cons.1 hc with rfl | hc
        · decide
        · exact graphic_of_isDigit (fraction c hc)
  · cases hx with
    | none => exact absurd hc List.not_mem_nil
    -- the mark of the exponent, a sign and digits
    | some mark signed digits =>
      rcases List.mem_cons.1 hc with rfl | hc
      · rcases mark with rfl | rfl <;> decide
      · rcases List.mem_append.1 hc with hc | hc
        · cases signed with
          | none => exact absurd hc List.not_mem_nil
          | plus | minus =>
            rw [List.mem_singleton.1 hc]
            decide
        · exact graphic_of_isDigit (digits c hc)

/-- Identifiers are written in graphic characters. -/
theorem Token.Identifier.graphic {l : List Char} (h : Token.Identifier l) : ∀ c ∈ l, Graphic c := by
  obtain ⟨c, cs, rfl, hc, hcs⟩ := h
  exact List.forall_mem_cons.2 ⟨graphic_of_isNameStart hc, fun d hd => graphic_of_isNameRest (hcs d hd)⟩

/-- Fixed texts are checked by running through them. -/
theorem graphic_of_all {l : List Char} (h : (l.all fun c => decide (Graphic c)) = true) :
    ∀ c ∈ l, Graphic c := by
  simpa using h

/-- All lexemes are written in graphic characters. -/
theorem Token.Lexeme.graphic {t : Token} {l : List Char} (h : t.Lexeme l) : ∀ c ∈ l, Graphic c := by
  cases h with
  | number numeral => exact numeral.graphic
  | name identifier free => exact identifier.graphic
  | truth b => exact (identifier_truth b).graphic
  | op o => exact graphic_of_all (by cases o <;> rfl)
  | bang | lparen | rparen | comma | colon | arrow => exact graphic_of_all rfl

/-- No lexeme has a blank in it. -/
theorem Terminal.Lexeme.not_isBlank {t : Terminal} {l : List Char} (h : t.Lexeme l) :
    ∀ c ∈ l, Text.isBlank c = false := by
  intro c hc
  cases h with
  | symbol proper =>
    rw [List.mem_singleton.1 hc]
    exact not_isBlank_of_isSymbolChar proper
  | mark m =>
    rw [List.mem_singleton.1 hc]
    exact Graphic.not_isBlank (by cases m <;> decide)
  | param identifier => exact (identifier.graphic c hc).not_isBlank
  | token lexeme => exact (lexeme.graphic c hc).not_isBlank

/-- Where a whole text is read, all blanks in it are gaps. -/
theorem isGap_of_lexes {ts : List Terminal} {cs rest : List Char} (h : Lexes cs ts rest)
    (hrest : skipGaps rest = []) : ∀ c ∈ cs, Text.isBlank c = true → Text.isGap c = true := by
  induction h with
  | nil cs => exact fun c hc _ => List.dropWhile_eq_nil_iff.1 hrest c hc
  | @cons t ts cs mid rest first more ih =>
    obtain ⟨l, hl, hcs⟩ := first.exists_lexeme
    intro c hc hblank
    rw [← List.takeWhile_append_dropWhile (p := Text.isGap) (l := cs)] at hc
    -- a blank before a lexeme is a gap, and there is none in a lexeme
    rcases List.mem_append.1 hc with hc | hc
    · exact List.mem_takeWhile_imp hc
    · rw [← skipGaps, hcs] at hc
      rcases List.mem_append.1 hc with hc | hc
      · exact absurd hblank (by simp [hl.not_isBlank c hc])
      · exact ih hrest c hc hblank

/-- In front of a row of templates there are no blanks but spaces and tabs, and they may be left out. -/
theorem ofChars?_of_blank_append {us : List Template} {before cs : List Char}
    (hbefore : Text.Blank before) (h : Template.ofChars? (before ++ cs) = some us) :
    Template.ofChars? cs = some us := by
  obtain ⟨ts, rest, hrow, hlexes, hrest⟩ := Rule.templates_iff.1 h
  have hgaps := isGap_of_lexes hlexes hrest
  have hskip : skipGaps cs = skipGaps (before ++ cs) := by
    rw [skipGaps, skipGaps, List.dropWhile_append_of_pos]
    exact fun c hc => hgaps c (List.mem_append_left cs hc) (hbefore c hc)
  obtain ⟨rest', hlexes', hrest'⟩ := Lexes.of_skipGaps hlexes hskip
  exact Rule.templates_iff.2 ⟨ts, rest', hrow, hlexes', hrest'.trans hrest⟩

/-- What is not blank is no gap. -/
theorem not_isGap_of_not_isBlank {c : Char} (h : Text.isBlank c = false) : Text.isGap c = false :=
  @Token.isGap_eq_false (fun d => !Text.isBlank d) c rfl rfl (by simp [h])

/-- There is no gap in front of a trimmed text. -/
theorem Bare.skipGaps_eq {cs : List Char} (h : Bare cs) : skipGaps cs = cs := by
  cases cs with
  | nil => rfl
  | cons c cs => exact Token.skipGaps_cons (not_isGap_of_not_isBlank (h.1 c rfl)) cs

/-- Of the trimmed texts only the empty one is a row with nothing in it. -/
theorem Bare.eq_nil_of_ofChars? {cs : List Char} (h : Bare cs)
    (hrow : Template.ofChars? cs = some []) : cs = [] := by
  obtain ⟨ts, rest, hempty, hlexes, hrest⟩ := Rule.templates_iff.1 hrow
  cases hempty
  cases hlexes
  rwa [h.skipGaps_eq] at hrest

/-! ### A plain rule -/

/-- A text of this form is read as a rule without context, parameters and sections. -/
theorem ofChars?_plain {p : Char} (hp : isSymbolChar p = true) (cs : List Char) :
    Rule.Written.ofChars? (p :: ' ' :: '-' :: '>' :: cs) =
      (Template.ofChars? cs).map fun us =>
        { left := none, predecessor := p, params := [], right := none, sections := [],
          successor := us } := by
  have hskip : skipGaps ('-' :: '>' :: cs) = '-' :: '>' :: cs := rfl
  have hmark : ∀ c, c ≠ '-' → mark? c ('-' :: '>' :: cs) = none := by
    intro c hc
    simp [mark?, hskip, hc.symm]
  have harrow : arrow? ('-' :: '>' :: cs) = some cs := by simp [arrow?, hskip]
  have hsymbol : symbol? (p :: ' ' :: '-' :: '>' :: cs) = some (p, ' ' :: '-' :: '>' :: cs) := by
    rw [symbol?, Token.skipGaps_cons (not_isGap_of_isSymbolChar hp)]
    simp [hp]
  -- the arrow ends what is before it, so that each optional part is absent
  have hrow : row (' ' :: '-' :: '>' :: cs) = ([], '-' :: '>' :: cs) := by simp [row, Text.isGap]
  have hleft : Rule.leftPart? (p :: ' ' :: '-' :: '>' :: cs) = some (none, p, '-' :: '>' :: cs) := by
    simp [Rule.leftPart?, hsymbol, hrow, hmark]
  have hparams : parenthesized? paramName? ('-' :: '>' :: cs) = some ([], '-' :: '>' :: cs) := by
    simp [parenthesized?, hmark]
  have hright : Rule.rightPart? ('-' :: '>' :: cs) = some (none, '-' :: '>' :: cs) := by
    simp [Rule.rightPart?, hmark]
  simp only [Rule.Written.ofChars?, hleft, hparams, hright, Rule.sections?, harrow,
    Option.bind_eq_bind, Option.bind_some]
  cases Template.ofChars? cs <;> rfl

/-- A text that does not begin with the sign of a symbol is not read at all. -/
theorem ofChars?_of_not_isSymbolChar {p : Char} (hblank : Text.isBlank p = false)
    (hp : isSymbolChar p = false) (cs : List Char) : Rule.Written.ofChars? (p :: cs) = none := by
  have hsymbol : symbol? (p :: cs) = none := by
    rw [symbol?, Token.skipGaps_cons (not_isGap_of_not_isBlank hblank)]
    simp [hp]
  simp [Rule.Written.ofChars?, Rule.leftPart?, hsymbol]

/-- A text of this shape is a plain rule, or none. -/
theorem parse_plain {p : Char} (hblank : Text.isBlank p = false) {cs : List Char} {r : Rule}
    (h : Rule.parse (String.ofList (p :: ' ' :: '-' :: '>' :: cs)) = .ok r) :
    ∃ us source, Template.ofChars? cs = some us ∧
      r = { predecessor := symbolName p, successor := us, source } := by
  rw [Rule.parse, String.toList_ofList] at h
  cases hp : isSymbolChar p with
  -- the first character has to be a symbol
  | false =>
    rw [ofChars?_of_not_isSymbolChar hblank hp] at h
    cases h
  | true =>
    rw [ofChars?_plain hp] at h
    cases hus : Template.ofChars? cs with
    | none =>
      rw [hus] at h
      cases h
    | some us =>
      rw [hus] at h
      exact ⟨us, _, rfl, (Except.ok.inj h).symm⟩

/-! ### The start of a rule -/

/-- A context that is not there is not written. -/
theorem written_eq_none {written : Option (List Char)} (h : Rule.SingleContext written none) :
    written = none := by
  cases h
  rfl

/-- Without a left context the predecessor is all there is. -/
theorem leftPart_none {ts : List Terminal} {p : Char} (h : Rule.LeftPart ts none p) :
    ts = [.symbol p] := by
  cases h
  rfl

/-- A rule without a left context has its predecessor at the start of its text. -/
theorem predecessor_of_parse {s : String} {r : Rule} (h : Rule.parse s = .ok r)
    (hleft : r.left = none) :
    ∃ p rest, r.predecessor = symbolName p ∧ skipGaps s.toList = p :: rest := by
  obtain ⟨w, r₀, hreading, hverdict, rfl⟩ := Rule.exists_reading_of_parse h
  obtain ⟨ts, rest, hlexes, -, hsentence⟩ := Rule.reading_iff_lexes.1 hreading
  cases hverdict with
  | rule distinct stated positive single single' =>
    obtain rfl := hleft
    cases hsentence with
    | mk left params right sections successor =>
      rw [written_eq_none single] at left
      rw [leftPart_none left] at hlexes
      obtain ⟨mid, hfirst, -⟩ := hlexes.exists_of_cons
      exact ⟨w.predecessor, mid, rfl, hfirst.1⟩

end Arbor
