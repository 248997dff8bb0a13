import Arbor.Proofs.Rule.Phase

/-!
# Reading the parts of a rule

Each reader of a part of a rule is compared with the form of that part, in both directions: what it
returns is what terminals in the text stand for (`_sound`), and terminals of that form are read as
what they stand for (`_complete`). Some parts end where something else begins, so the second direction
asks what follows: a row of symbols ends at a character that is none or at an arrow (`RowEnds`), and
a symbol without a list has no parenthesis after it.

A reader may have skipped the spaces and tabs after its part already. So the rest that it leaves is
given up to these; no reader minds them.

* `Rule.templates_iff`: the templates of a whole text;
* `Rule.reading_iff`: the parts of a rule.
-/

namespace Arbor

open Token (skipGaps next?)

/-! ### Single terminals -/

section Single

variable {cs cs' mid rest : List Char} {c : Char} {t : Terminal} {ts : List Terminal}

/-- Gaps before a token make no difference. -/
theorem next?_skipGaps (cs : List Char) : next? (skipGaps cs) = next? cs := by
  simp only [next?, Token.skipGaps_skipGaps]

/-- The spaces and tabs in front of a terminal do not matter. -/
theorem Terminal.Next.of_skipGaps (h : t.Next cs rest) (heq : skipGaps cs' = skipGaps cs) :
    t.Next cs' rest := by
  have hnext : next? cs' = next? cs := by rw [← next?_skipGaps cs', heq, next?_skipGaps]
  cases t with
  | symbol c => exact ⟨heq ▸ h.1, h.2⟩
  | mark m => exact heq.trans h
  | param s =>
    obtain ⟨u, hu, hs⟩ := h
    exact ⟨u, hnext.trans hu, hs⟩
  | token u => exact hnext.trans h

/-- Terminals are read alike from texts that differ in the gaps before them. -/
theorem Lexes.of_skipGaps (h : Lexes cs ts mid) (heq : skipGaps cs' = skipGaps cs) :
    ∃ mid', Lexes cs' ts mid' ∧ skipGaps mid' = skipGaps mid := by
  cases h with
  | nil => exact ⟨cs', .nil cs', heq⟩
  | cons first more => exact ⟨mid, .cons (first.of_skipGaps heq) more, rfl⟩

/-- Each terminal takes a character at least. -/
theorem Lexes.length_add_le (h : Lexes cs ts rest) : rest.length + ts.length ≤ cs.length :=
  Chain.length_add_le (fun _ _ _ => Terminal.Next.length_lt) h

/-- Terminals that are tokens are read as these tokens. -/
theorem lexes_tokens_iff {us : List Token} :
    Lexes cs (us.map .token) rest ↔ Token.Reads cs us rest := Chain.map_iff

/-- A symbol is read just where it is the next terminal. -/
theorem symbol?_eq_some_iff : symbol? cs = some (c, rest) ↔ (Terminal.symbol c).Next cs rest := by
  simp only [symbol?, Terminal.Next]
  split
  · next d r hcs =>
    rw [hcs]
    by_cases hd : isSymbolChar d = true
    · simp only [if_pos hd, Option.some.injEq, Prod.mk.injEq, List.cons.injEq]
      constructor
      · rintro ⟨rfl, rfl⟩
        exact ⟨⟨rfl, rfl⟩, hd⟩
      · exact And.left
    · simp only [if_neg hd, List.cons.injEq, reduceCtorEq, false_iff]
      rintro ⟨⟨rfl, rfl⟩, h⟩
      exact hd h
  · next hcs => simp [hcs]

/-- A mark is read just where it stands after gaps. -/
theorem mark?_eq_some_iff : mark? c cs = some rest ↔ skipGaps cs = c :: rest := by
  simp only [mark?]
  split
  · next d r hcs =>
    rw [hcs]
    by_cases hd : d = c
    · simp [hd]
    · simp [hd]
  · next hcs => simp [hcs]

/-- Gaps before a mark make no difference. -/
theorem mark?_skipGaps (c : Char) (cs : List Char) : mark? c (skipGaps cs) = mark? c cs := by
  simp only [mark?, Token.skipGaps_skipGaps]

/-- A token whose only lexeme is a single character is read as that character. -/
theorem mark?_eq_some_iff_token {u : Token} (hl : u.Lexeme [c]) (hunique : ∀ l, u.Lexeme l → l = [c])
    (hends : ∀ rest, u.Ends rest) : mark? c cs = some rest ↔ next? cs = some (u, rest) := by
  rw [mark?_eq_some_iff]
  constructor
  · intro h
    exact Token.next?_of_lexeme_ends hl h (hends rest)
  · intro h
    obtain ⟨l, hl, hcs⟩ := Token.exists_lexeme_of_next? h
    rw [hunique l hl] at hcs
    exact hcs

/-- A parenthesis opens as a mark and as a token alike. -/
theorem mark?_lparen : mark? '(' cs = some rest ↔ next? cs = some (.lparen, rest) :=
  mark?_eq_some_iff_token .lparen (fun l h => by cases h; rfl) fun _ => trivial

theorem mark?_rparen : mark? ')' cs = some rest ↔ next? cs = some (.rparen, rest) :=
  mark?_eq_some_iff_token .rparen (fun l h => by cases h; rfl) fun _ => trivial

theorem mark?_colon : mark? ':' cs = some rest ↔ next? cs = some (.colon, rest) :=
  mark?_eq_some_iff_token .colon (fun l h => by cases h; rfl) fun _ => trivial

theorem mark?_star : mark? '*' cs = some rest ↔ next? cs = some (.op .mul, rest) :=
  mark?_eq_some_iff_token (.op .mul) (fun l h => by cases h; rfl) fun _ => trivial

/-- The arrow is read just where its token is. -/
theorem arrow?_eq_some_iff : arrow? cs = some rest ↔ next? cs = some (.arrow, rest) := by
  constructor
  · intro h
    simp only [arrow?] at h
    split at h
    · next r hcs =>
      obtain rfl : r = rest := by simpa using h
      exact Token.next?_of_lexeme_ends .arrow hcs trivial
    · simp at h
  · intro h
    obtain ⟨l, hl, hcs⟩ := Token.exists_lexeme_of_next? h
    cases hl
    simp [arrow?, hcs]

/-- Where another terminal stands, there is no closing parenthesis. -/
theorem mark?_rparen_eq_none (h : t.Next cs mid) (ht : t ≠ .token .rparen) : mark? ')' cs = none := by
  cases hmark : mark? ')' cs with
  | none => rfl
  | some rest =>
    exfalso
    have hrparen := mark?_rparen.1 hmark
    rw [mark?_eq_some_iff] at hmark
    cases t with
    | symbol c =>
      rw [h.1] at hmark
      obtain ⟨rfl, -⟩ := List.cons.inj hmark
      exact absurd h.2 (by decide)
    | mark m =>
      rw [show skipGaps cs = m.char :: mid from h] at hmark
      obtain ⟨hchar, -⟩ := List.cons.inj hmark
      cases m <;> exact absurd hchar (by decide)
    | param s =>
      obtain ⟨u, hu, hs⟩ := h
      rw [hrparen] at hu
      obtain ⟨rfl, rfl⟩ := Prod.mk.inj (Option.some.inj hu)
      simp [Token.name?] at hs
    | token u =>
      rw [show next? cs = some (u, mid) from h] at hrparen
      obtain ⟨rfl, rfl⟩ := Prod.mk.inj (Option.some.inj hrparen)
      exact ht rfl

/-- A reader of single characters that finds none. -/
theorem mark?_eq_none (h : ∀ rest, skipGaps cs ≠ c :: rest) : mark? c cs = none := by
  rw [Option.eq_none_iff_forall_not_mem]
  exact fun rest hrest => h rest (mark?_eq_some_iff.1 hrest)

end Single

/-! ### Rows -/

section Rows

variable {cs mid rest : List Char} {symbols : List Char}

/-- The sign of a symbol is no gap. -/
theorem not_isGap_of_isSymbolChar {c : Char} (h : isSymbolChar c = true) : Text.isGap c = false :=
  Token.isGap_eq_false rfl rfl h

/-- A row of symbols ends here: at a character that is none, or at an arrow. -/
def RowEnds (cs : List Char) : Prop :=
  ∃ c rest, skipGaps cs = c :: rest ∧ (isSymbolChar c = false ∨ c = '-' ∧ rest.head? = some '>')

/-- Gaps before a row of symbols make no difference. -/
theorem row_skipGaps (cs : List Char) : row (skipGaps cs) = row cs := by
  induction cs with
  | nil => rfl
  | cons c cs ih =>
    by_cases hc : Text.isGap c = true
    · have hskip : skipGaps (c :: cs) = skipGaps cs := by simp [skipGaps, hc]
      rw [hskip, ih, row, if_pos hc]
    · rw [Bool.not_eq_true] at hc
      rw [Token.skipGaps_cons hc]

/-- What is taken for a row of symbols is one. -/
theorem row_sound (cs : List Char) :
    ∃ mid, Lexes cs ((row cs).1.map .symbol) mid ∧ (row cs).2 = skipGaps mid := by
  induction cs with
  | nil => exact ⟨[], .nil [], rfl⟩
  | cons c cs ih =>
    -- the row of the tail, whether the head is skipped, belongs to it or ends the row before it
    obtain ⟨mid, hlexes, heq⟩ := ih
    rw [row]
    by_cases hgap : Text.isGap c = true
    · rw [if_pos hgap]
      have hskip : skipGaps (c :: cs) = skipGaps cs := by simp [skipGaps, hgap]
      obtain ⟨mid', hlexes', heq'⟩ := hlexes.of_skipGaps hskip
      exact ⟨mid', hlexes', heq.trans heq'.symm⟩
    · have hskip := Token.skipGaps_cons (Bool.eq_false_iff.2 hgap) cs
      rw [if_neg hgap]
      split
      · exact ⟨c :: cs, .nil _, hskip.symm⟩
      · split
        · next hc => exact ⟨mid, .cons ⟨hskip, hc⟩ hlexes, heq⟩
        · exact ⟨c :: cs, .nil _, hskip.symm⟩

/-- A row of symbols is taken as it is, up to where it ends. -/
theorem row_complete (h : Lexes cs (symbols.map .symbol) mid) (hends : RowEnds mid)
    (hmid : symbols ≠ [] → ∀ rest, skipGaps mid ≠ '>' :: rest) :
    row cs = (symbols, skipGaps mid) := by
  induction symbols generalizing cs with
  | nil =>
    cases h
    obtain ⟨c, rest, hskip, hc⟩ := hends
    -- gaps have been skipped, so the character that ends the row is none
    have hgap : Text.isGap c = false := by
      have := List.head?_dropWhile_not Text.isGap mid
      rw [show mid.dropWhile Text.isGap = c :: rest from hskip] at this
      simpa using this
    rw [← row_skipGaps, hskip, row, if_neg (by simp [hgap])]
    rcases hc with hc | hc
    · simp [hc]
    · rw [if_pos hc]
  | cons c symbols ih =>
    obtain ⟨r, ⟨hskip, hc⟩, hmore⟩ := h.exists_of_cons
    -- the symbol is not the first half of an arrow, as nothing after it starts with the other half
    have harrow : ¬ (c = '-' ∧ r.head? = some '>') := by
      rintro ⟨-, hhead⟩
      obtain ⟨r', rfl⟩ := List.head?_eq_some_iff.1 hhead
      cases symbols with
      | nil =>
        cases hmore
        exact hmid (by simp) r' rfl
      | cons d symbols =>
        obtain ⟨_, ⟨hd, hproper⟩, -⟩ := hmore.exists_of_cons
        obtain rfl : '>' = d := (List.cons.inj hd).1
        exact absurd hproper (by decide)
    have hrow := ih hmore fun _ => hmid (by simp)
    rw [← row_skipGaps, hskip, row, if_neg (by simp [not_isGap_of_isSymbolChar hc]), if_neg harrow,
      if_pos hc, hrow]

end Rows

namespace Rule

/-! ### Lists in parentheses -/

section Lists

variable {α : Type} {item? : List Char → Option (α × List Char)}
  {Item : List Terminal → α → Prop} {cs rest : List Char} {ts : List Terminal} {as : List α}

/-- A reader of items: it reads what the form of an item allows, up to a comma or the closing
parenthesis. -/
structure ItemReader (item? : List Char → Option (α × List Char)) (Item : List Terminal → α → Prop) :
    Prop where
  sound : ∀ {cs a rest}, item? cs = some (a, rest) → ∃ ts, Item ts a ∧ Lexes cs ts rest
  complete : ∀ {ts a cs rest t mid}, Item ts a → Lexes cs ts rest → next? rest = some (t, mid) →
    t = .comma ∨ t = .rparen → item? cs = some (a, rest)
  head : ∀ {ts a}, Item ts a → ∃ t us, ts = t :: us ∧ t ≠ .token .rparen

/-- A list that is read is made of items and commas, and is closed. -/
theorem listed?_sound (reader : ItemReader item? Item) {n : Nat}
    (h : listed? item? n cs = some (as, rest)) :
    ∃ ts, Listed Item ts as ∧ Lexes cs (ts ++ [Terminal.token .rparen]) rest := by
  induction n generalizing cs as with
  | zero => simp [listed?] at h
  | succ n ih =>
    simp only [listed?, Option.bind_eq_bind, Option.bind_eq_some_iff] at h
    obtain ⟨⟨a, mid⟩, ha, h⟩ := h
    obtain ⟨ts, hts, hlexes⟩ := reader.sound ha
    split at h
    · -- a comma, and more items
      next mid' hcomma =>
      obtain ⟨⟨bs, rest'⟩, hbs, h⟩ := Option.bind_eq_some_iff.1 h
      obtain ⟨rfl, rfl⟩ : a :: bs = as ∧ rest' = rest := by simpa using h
      obtain ⟨us, hus, hlexes'⟩ := ih hbs
      refine ⟨ts ++ .token .comma :: us, .more hts hus, ?_⟩
      rw [List.append_assoc]
      have hcomma' : (Terminal.token .comma).Next mid mid' := hcomma
      exact hlexes.append (.cons hcomma' hlexes')
    · -- the closing parenthesis
      next mid' hclose =>
      obtain ⟨rfl, rfl⟩ : [a] = as ∧ mid' = rest := by simpa using h
      have hclose' : (Terminal.token .rparen).Next mid mid' := hclose
      exact ⟨ts, .one hts, hlexes.append (.one hclose')⟩
    · simp at h

/-- Such a list is read. -/
theorem listed?_complete (reader : ItemReader item? Item) (h : Listed Item ts as)
    (hlexes : Lexes cs (ts ++ [.token .rparen]) rest) {n : Nat} (hn : cs.length < n) :
    listed? item? n cs = some (as, rest) := by
  induction h generalizing cs n with
  | @one ts a item =>
    obtain ⟨mid, hts, hclose⟩ := hlexes.exists_of_append
    obtain ⟨_, hclose, hnil⟩ := hclose.exists_of_cons
    cases hnil
    obtain ⟨n, rfl⟩ : ∃ m, n = m + 1 := ⟨n - 1, by omega⟩
    have hitem := reader.complete item hts hclose (.inr rfl)
    have hnext : next? mid = some (.rparen, rest) := hclose
    simp [listed?, hitem, hnext]
  | @more ts us a as item _ ih =>
    rw [List.append_assoc] at hlexes
    obtain ⟨mid, hts, hmore⟩ := hlexes.exists_of_append
    obtain ⟨mid', hcomma, hmore⟩ := hmore.exists_of_cons
    obtain ⟨n, rfl⟩ : ∃ m, n = m + 1 := ⟨n - 1, by omega⟩
    have hitem := reader.complete item hts hcomma (.inl rfl)
    -- the comma alone makes the rest short enough for the fuel that is left
    have hlen := Lexes.length_add_le hts
    have hlt := Terminal.Next.length_lt hcomma
    have hnext : next? mid = some (.comma, mid') := hcomma
    have hrest := ih hmore (n := n) (by omega)
    simp [listed?, hitem, hnext, hrest]

/-- The first terminal of a list is that of its first item. -/
theorem Listed.exists_head (h : Listed Item ts as) (reader : ItemReader item? Item) :
    ∃ t us, ts = t :: us ∧ t ≠ .token .rparen := by
  cases h with
  | one item => exact reader.head item
  | more item _ =>
    obtain ⟨t, us, rfl, hne⟩ := reader.head item
    exact ⟨t, _, rfl, hne⟩

/-- What is read where parentheses may stand: nothing, a pair of them or a list. -/
theorem parenthesized?_sound (reader : ItemReader item? Item)
    (h : parenthesized? item? cs = some (as, rest)) :
    ∃ ts, Parenthesized Item ts as ∧ Lexes cs ts rest := by
  unfold parenthesized? at h
  split at h
  · -- no parenthesis is opened, and nothing is read
    obtain ⟨rfl, rfl⟩ : [] = as ∧ cs = rest := by simpa using h
    exact ⟨[], .absent, .nil cs⟩
  · next mid hopen =>
    have hopen' : (Terminal.token .lparen).Next cs mid := mark?_lparen.1 hopen
    split at h
    · next mid' hclose =>
      obtain ⟨rfl, rfl⟩ : [] = as ∧ mid' = rest := by simpa using h
      have hclose' : (Terminal.token .rparen).Next mid mid' := mark?_rparen.1 hclose
      exact ⟨_, .empty, .cons hopen' (.one hclose')⟩
    · obtain ⟨ts, hts, hlexes⟩ := listed?_sound reader h
      exact ⟨_, .list hts, .cons hopen' hlexes⟩

/-- Each of these is read, unless a parenthesis would be opened after nothing. -/
theorem parenthesized?_complete (reader : ItemReader item? Item) (h : Parenthesized Item ts as)
    (hlexes : Lexes cs ts rest) (hrest : ∀ mid, skipGaps rest ≠ '(' :: mid) :
    parenthesized? item? cs = some (as, rest) := by
  cases h with
  | absent =>
    cases hlexes
    rw [parenthesized?, mark?_eq_none hrest]
  | empty =>
    obtain ⟨mid, hopen, hmore⟩ := hlexes.exists_of_cons
    obtain ⟨_, hclose, hnil⟩ := hmore.exists_of_cons
    cases hnil
    simp only [parenthesized?, mark?_lparen.2 hopen, mark?_rparen.2 hclose]
  | @list us _ items =>
    obtain ⟨mid, hopen, hmore⟩ := hlexes.exists_of_cons
    have hlisted := listed?_complete reader items hmore (Nat.lt_succ_self _)
    -- the first item keeps the list from being taken for an empty one
    obtain ⟨t, vs, rfl, hne⟩ := items.exists_head reader
    obtain ⟨_, hfirst, -⟩ := hmore.exists_of_cons
    have hclose : mark? ')' mid = none := mark?_rparen_eq_none hfirst hne
    simp only [parenthesized?, mark?_lparen.2 hopen, hclose, hlisted]

end Lists

/-- Names are read as the names of parameters. -/
theorem paramName_reader : ItemReader paramName? ParamName where
  sound := by
    intro cs a rest h
    unfold paramName? at h
    split at h
    · next t rest' hnext =>
      obtain ⟨s, hs, heq⟩ := Option.map_eq_some_iff.1 h
      obtain ⟨rfl, rfl⟩ := Prod.mk.inj heq
      exact ⟨_, .mk s, .one ⟨t, hnext, hs⟩⟩
    · simp at h
  complete := by
    intro ts a cs rest t mid item hlexes _ _
    cases item
    obtain ⟨_, ⟨u, hu, hs⟩, hnil⟩ := hlexes.exists_of_cons
    cases hnil
    simp [paramName?, hu, hs]
  head := by
    intro ts a item
    cases item
    exact ⟨_, _, rfl, by simp⟩

/-- An expression is read up to any token that is no operator. -/
theorem Phrase.take? {ts : List Terminal} {e : Expr} {cs rest : List Char} (h : Phrase ts e)
    (hlexes : Lexes cs ts rest) (hrest : ∀ op mid, next? rest ≠ some (.op op, mid)) :
    Expr.take? cs = some (e, rest) := by
  obtain ⟨derives⟩ := h
  exact Expr.take?_complete derives (lexes_tokens_iff.1 hlexes) hrest

/-- An expression starts with an operand. -/
theorem Phrase.exists_head {ts : List Terminal} {e : Expr} (h : Phrase ts e) :
    ∃ t us, ts = .token t :: us ∧ t.startsOperand = true := by
  obtain ⟨derives⟩ := h
  obtain ⟨t, us, rfl, hstart, -⟩ := derives.exists_head
  exact ⟨t, _, rfl, hstart⟩

/-- Terminals of an expression are read where one is taken. -/
theorem exists_phrase_of_take? {cs rest : List Char} {e : Expr} (h : Expr.take? cs = some (e, rest)) :
    ∃ ts, Phrase ts e ∧ Lexes cs ts rest := by
  obtain ⟨us, hreads, hderives⟩ := Expr.take?_sound h
  exact ⟨_, .mk hderives, lexes_tokens_iff.2 hreads⟩

/-- Expressions are items of lists. -/
theorem phrase_reader : ItemReader Expr.take? Phrase where
  sound := exists_phrase_of_take?
  complete := by
    intro ts a cs rest t mid item hlexes hnext ht
    -- a comma and a parenthesis are no operators
    refine item.take? hlexes fun op m hm => ?_
    rw [hnext] at hm
    obtain ⟨rfl, rfl⟩ := Prod.mk.inj (Option.some.inj hm)
    simp at ht
  head := by
    intro ts a item
    obtain ⟨t, us, rfl, hstart⟩ := item.exists_head
    refine ⟨_, us, rfl, ?_⟩
    rintro ⟨rfl⟩
    simp [Token.startsOperand] at hstart

/-! ### Templates -/

section Templates

variable {cs rest : List Char} {ts : List Terminal}

/-- A template that is taken is written as one. -/
theorem template_sound {t : Template} (h : Template.take? cs = some (t, rest)) :
    ∃ ts, TemplatePart ts t ∧ Lexes cs ts rest := by
  simp only [Template.take?, Option.bind_eq_bind, Option.bind_eq_some_iff] at h
  obtain ⟨⟨c, mid⟩, hsymbol, ⟨args, rest'⟩, hargs, h⟩ := h
  obtain ⟨us, hus, hlexes⟩ := parenthesized?_sound phrase_reader hargs
  cases hmark : mark? '~' cs with
  | none =>
    simp only [hmark] at hsymbol h
    obtain ⟨rfl, rfl⟩ : Template.mk (symbolName c) args false = t ∧ rest' = rest := by simpa using h
    exact ⟨_, .plain c hus, .cons (symbol?_eq_some_iff.1 hsymbol) hlexes⟩
  | some mid' =>
    simp only [hmark] at hsymbol h
    obtain ⟨rfl, rfl⟩ : Template.mk (symbolName c) args true = t ∧ rest' = rest := by simpa using h
    have hpatch : (Terminal.mark .patch).Next cs mid' := mark?_eq_some_iff.1 hmark
    exact ⟨_, .patch c hus, .cons hpatch (.cons (symbol?_eq_some_iff.1 hsymbol) hlexes)⟩

/-- A template that is written as one is taken, unless arguments would follow it. -/
theorem template_complete {t : Template} (h : TemplatePart ts t) (hlexes : Lexes cs ts rest)
    (hrest : ∀ mid, skipGaps rest ≠ '(' :: mid) : Template.take? cs = some (t, rest) := by
  cases h with
  | plain c list =>
    obtain ⟨mid, hsymbol, hmore⟩ := hlexes.exists_of_cons
    -- the mark of a patch is no symbol
    have hmark : mark? '~' cs = none := by
      refine mark?_eq_none fun r hr => ?_
      rw [hsymbol.1] at hr
      obtain ⟨rfl, -⟩ := List.cons.inj hr
      exact absurd hsymbol.2 (by decide)
    have hargs := parenthesized?_complete phrase_reader list hmore hrest
    simp [Template.take?, hmark, symbol?_eq_some_iff.2 hsymbol, hargs]
  | patch c list =>
    obtain ⟨mid, hpatch, hmore⟩ := hlexes.exists_of_cons
    obtain ⟨mid', hsymbol, hmore⟩ := hmore.exists_of_cons
    have hmark : mark? '~' cs = some mid := mark?_eq_some_iff.2 hpatch
    have hargs := parenthesized?_complete phrase_reader list hmore hrest
    simp [Template.take?, hmark, symbol?_eq_some_iff.2 hsymbol, hargs]

/-- Templates are taken up to the end of the text. -/
theorem templates_sound {n : Nat} {us : List Template} (h : Template.row? n cs = some us) :
    ∃ ts rest, Repeated TemplatePart ts us ∧ Lexes cs ts rest ∧ skipGaps rest = [] := by
  induction n generalizing cs us with
  | zero => simp [Template.row?] at h
  | succ n ih =>
    rw [Template.row?] at h
    split at h
    · next hgaps =>
      obtain rfl : [] = us := by simpa using h
      exact ⟨[], cs, .nil, .nil cs, hgaps⟩
    · simp only [Option.bind_eq_bind, Option.bind_eq_some_iff] at h
      obtain ⟨⟨u, mid⟩, hu, vs, hvs, h⟩ := h
      obtain rfl : u :: vs = us := by simpa using h
      obtain ⟨ts, hts, hlexes⟩ := template_sound hu
      obtain ⟨ts', rest, hts', hlexes', hgaps⟩ := ih hvs
      exact ⟨ts ++ ts', rest, .cons hts hts', hlexes.append hlexes', hgaps⟩

/-- A template starts with a symbol or the mark of a patch, and so with no parenthesis. -/
theorem Repeated.not_lparen {us : List Template} (h : Repeated TemplatePart ts us)
    (hlexes : Lexes cs ts rest) (hgaps : skipGaps rest = []) (mid : List Char) :
    skipGaps cs ≠ '(' :: mid := by
  intro hparen
  -- with no template left the text is at its end
  cases h with
  | nil =>
    cases hlexes
    rw [hgaps] at hparen
    simp at hparen
  | cons item _ =>
    cases item with
    | plain c list =>
      obtain ⟨_, ⟨hskip, hc⟩, -⟩ := hlexes.exists_of_cons
      rw [hskip] at hparen
      obtain ⟨rfl, -⟩ := List.cons.inj hparen
      exact absurd hc (by decide)
    | patch c list =>
      obtain ⟨m, hpatch, -⟩ := hlexes.exists_of_cons
      rw [show skipGaps cs = '~' :: m from hpatch] at hparen
      simp at hparen

/-- All templates that are written are taken. -/
theorem templates_complete {us : List Template} (h : Repeated TemplatePart ts us)
    (hlexes : Lexes cs ts rest) (hgaps : skipGaps rest = []) {n : Nat} (hn : cs.length < n) :
    Template.row? n cs = some us := by
  induction h generalizing cs n with
  | nil =>
    cases hlexes
    obtain ⟨n, rfl⟩ : ∃ m, n = m + 1 := ⟨n - 1, by omega⟩
    rw [Template.row?, if_pos hgaps]
  | @cons ts ts' u us item others ih =>
    obtain ⟨mid, hts, hmore⟩ := hlexes.exists_of_append
    obtain ⟨n, rfl⟩ : ∃ m, n = m + 1 := ⟨n - 1, by omega⟩
    -- the next template starts with no parenthesis, which would belong to this one
    have htake := template_complete item hts (others.not_lparen hmore hgaps)
    obtain ⟨t, ts₁, rfl⟩ : ∃ t ts₁, ts = t :: ts₁ := by cases item <;> exact ⟨_, _, rfl⟩
    have hlen := Lexes.length_add_le hts
    rw [List.length_cons] at hlen
    have hrow := ih hmore (n := n) (by omega)
    have hne : skipGaps cs ≠ [] := by
      intro hnil
      obtain ⟨_, hfirst, -⟩ := hts.exists_of_cons
      obtain ⟨l, hl, hcs⟩ := hfirst.exists_lexeme
      rw [hnil] at hcs
      exact hl.ne_nil (List.append_eq_nil_iff.1 hcs.symm).1
    rw [Template.row?, if_neg hne]
    simp [htake, hrow]

/-- **Templates.** The templates that a whole text is are those that its terminals stand for. -/
theorem templates_iff {us : List Template} :
    Template.ofChars? cs = some us ↔
      ∃ ts rest, Repeated TemplatePart ts us ∧ Lexes cs ts rest ∧ skipGaps rest = [] := by
  constructor
  · exact templates_sound
  · rintro ⟨ts, rest, h, hlexes, hgaps⟩
    exact templates_complete h hlexes hgaps (Nat.lt_succ_self _)

end Templates

/-! ### Sections -/

section Sections

variable {cs rest : List Char} {ss : List Section}

/-- What is read before the arrow are sections, each with its colon. -/
theorem sections?_sound {n : Nat} (h : sections? n cs = some (ss, rest)) :
    ∃ s, Repeated SectionPart s ss ∧ Lexes cs (s ++ [Terminal.token .arrow]) rest := by
  induction n generalizing cs ss with
  | zero => simp [sections?] at h
  | succ n ih =>
    rw [sections?] at h
    split at h
    · -- the arrow: no section more
      next rest' harrow =>
      obtain ⟨rfl, rfl⟩ : [] = ss ∧ rest' = rest := by simpa using h
      have harrow' : (Terminal.token .arrow).Next cs rest' := arrow?_eq_some_iff.1 harrow
      exact ⟨[], .nil, .one harrow'⟩
    · obtain ⟨mid, hcolon, h⟩ := Option.bind_eq_some_iff.1 h
      have hcolon' : (Terminal.token .colon).Next cs mid := mark?_colon.1 hcolon
      split at h
      · -- a star alone
        next mid' hstar =>
        have hstar' : (Terminal.token (.op .mul)).Next mid mid' := mark?_star.1 hstar
        simp only [Option.bind_eq_bind, Option.bind_some, Option.bind_eq_some_iff] at h
        obtain ⟨⟨xs, rest'⟩, hxs, h⟩ := h
        obtain ⟨rfl, rfl⟩ : Section.always :: xs = ss ∧ rest' = rest := by simpa using h
        obtain ⟨s, hs, hlexes⟩ := ih hxs
        exact ⟨_, .cons .always hs, .cons hcolon' (.cons hstar' hlexes)⟩
      · -- an expression
        simp only [Option.bind_eq_bind, Option.bind_eq_some_iff, Option.map_eq_some_iff] at h
        obtain ⟨-, ⟨⟨e, mid'⟩, he, rfl⟩, ⟨xs, rest'⟩, hxs, h⟩ := h
        obtain ⟨rfl, rfl⟩ : Section.expr e :: xs = ss ∧ rest' = rest := by simpa using h
        obtain ⟨s, hs, hlexes⟩ := ih hxs
        obtain ⟨ts, hts, hlexes'⟩ := exists_phrase_of_take? he
        have hall : Lexes mid (ts ++ s ++ [Terminal.token .arrow]) rest' := by
          rw [List.append_assoc]
          exact hlexes'.append hlexes
        exact ⟨_, .cons (.expr hts) hs, .cons hcolon' hall⟩

/-- After a section a colon or the arrow stands. -/
theorem Repeated.exists_head {s : List Terminal} (h : Repeated SectionPart s ss)
    (us : List Terminal) : ∃ t vs, s ++ Terminal.token .arrow :: us = .token t :: vs ∧
      (t = .colon ∨ t = .arrow) := by
  cases h with
  | nil => exact ⟨.arrow, us, rfl, .inr rfl⟩
  | cons item _ => cases item <;> exact ⟨.colon, _, rfl, .inl rfl⟩

/-- So an expression ends where the sections after its own begin. -/
theorem Repeated.next?_ne_op {s : List Terminal} (h : Repeated SectionPart s ss)
    (hlexes : Lexes cs (s ++ [Terminal.token .arrow]) rest) (op : BinOp) (mid : List Char) :
    next? cs ≠ some (.op op, mid) := by
  intro hop
  obtain ⟨t, us, heq, ht⟩ := h.exists_head []
  rw [heq] at hlexes
  obtain ⟨m, hnext, -⟩ := hlexes.exists_of_cons
  rw [show next? cs = some (t, m) from hnext] at hop
  obtain ⟨rfl, -⟩ := Prod.mk.inj (Option.some.inj hop)
  simp at ht

/-- A colon is not taken for the arrow. -/
theorem arrow?_of_colon {mid : List Char} (h : (Terminal.token .colon).Next cs mid) :
    arrow? cs = none := by
  cases harrow : arrow? cs with
  | none => rfl
  | some r =>
    rw [arrow?_eq_some_iff, show next? cs = some (.colon, mid) from h] at harrow
    simp at harrow

/-- No expression starts with a star, which would be a section by itself. -/
theorem Phrase.mark?_star_eq_none {ts : List Terminal} {e : Expr} {mid : List Char} (h : Phrase ts e)
    (hlexes : Lexes cs ts mid) : mark? '*' cs = none := by
  cases hstar : mark? '*' cs with
  | none => rfl
  | some r =>
    obtain ⟨t, us, rfl, hstart⟩ := h.exists_head
    obtain ⟨_, hfirst, -⟩ := hlexes.exists_of_cons
    rw [mark?_star, show next? cs = some (t, _) from hfirst] at hstar
    obtain ⟨rfl, -⟩ := Prod.mk.inj (Option.some.inj hstar)
    simp [Token.startsOperand] at hstart

/-- The sections that the terminals stand for are read up to the arrow. -/
theorem sections?_complete {s : List Terminal} (h : Repeated SectionPart s ss)
    (hlexes : Lexes cs (s ++ [Terminal.token .arrow]) rest) {n : Nat} (hn : cs.length < n) :
    sections? n cs = some (ss, rest) := by
  induction h generalizing cs n with
  | nil =>
    obtain ⟨mid, harrow, hnil⟩ := hlexes.exists_of_cons
    cases hnil
    obtain ⟨n, rfl⟩ : ∃ m, n = m + 1 := ⟨n - 1, by omega⟩
    rw [sections?, arrow?_eq_some_iff.2 harrow]
  | @cons ts s x ss item others ih =>
    rw [List.append_assoc] at hlexes
    obtain ⟨mid, hts, hmore⟩ := hlexes.exists_of_append
    obtain ⟨n, rfl⟩ : ∃ m, n = m + 1 := ⟨n - 1, by omega⟩
    -- a section starts with its colon, which makes what follows shorter
    obtain ⟨us, rfl⟩ : ∃ us, ts = .token .colon :: us := by cases item <;> exact ⟨_, rfl⟩
    have hlen := Lexes.length_add_le hts
    rw [List.length_cons] at hlen
    have hrest := ih hmore (n := n) (by omega)
    obtain ⟨m, hcolon, hus⟩ := hts.exists_of_cons
    rw [sections?, arrow?_of_colon hcolon]
    simp only [mark?_colon.2 hcolon, Option.bind_eq_bind, Option.bind_some]
    cases item with
    | always =>
      obtain ⟨m', hstar, hnil⟩ := hus.exists_of_cons
      cases hnil
      simp [mark?_star.2 hstar, hrest]
    | expr phrase =>
      have hphrase := phrase.take? hus (others.next?_ne_op hmore)
      simp [phrase.mark?_star_eq_none hus, hphrase, hrest]

end Sections

/-! ### Contexts -/

section Contexts

variable {cs mid rest : List Char} {l r b s : List Terminal} {left right : Option (List Char)}
  {p : Char} {params : List String} {ss : List Section}

/-- The terminals at which the row before them ends. -/
def EndsRow (t : Terminal) : Prop :=
  t = .mark .before ∨ t = .mark .after ∨ ∃ u, t = .token u ∧ (u = .lparen ∨ u = .colon ∨ u = .arrow)

/-- Such a terminal starts with a character that is no symbol, or with an arrow. -/
theorem EndsRow.rowEnds {t : Terminal} (ht : EndsRow t) (h : t.Next cs rest) : RowEnds cs := by
  rcases ht with rfl | rfl | ⟨u, rfl, rfl | rfl | rfl⟩
  · exact ⟨'<', rest, h, .inl (by decide)⟩
  · exact ⟨'>', rest, h, .inl (by decide)⟩
  · exact ⟨'(', rest, mark?_eq_some_iff.1 (mark?_lparen.2 h), .inl (by decide)⟩
  · exact ⟨':', rest, mark?_eq_some_iff.1 (mark?_colon.2 h), .inl (by decide)⟩
  · obtain ⟨l, hl, hcs⟩ := Terminal.Next.exists_lexeme h
    cases hl.of_token
    exact ⟨'-', '>' :: rest, hcs, .inr ⟨rfl, rfl⟩⟩

/-- A mark starts with its own character and no other. -/
theorem not_mark {t : Terminal} {m : Mark} (ht : EndsRow t) (hm : t ≠ .mark m)
    (h : t.Next cs rest) (hpatch : m ≠ .patch) (mid : List Char) : skipGaps cs ≠ m.char :: mid := by
  obtain ⟨l, hl, hcs⟩ := h.exists_lexeme
  intro heq
  rw [heq] at hcs
  rcases ht with rfl | rfl | ⟨u, rfl, rfl | rfl | rfl⟩
  · cases hl
    cases m <;> simp_all [Mark.char]
  · cases hl
    cases m <;> simp_all [Mark.char]
  · cases hl.of_token
    cases m <;> simp_all [Mark.char]
  · cases hl.of_token
    cases m <;> simp_all [Mark.char]
  · cases hl.of_token
    cases m <;> simp_all [Mark.char]

/-- What is taken for a left part is one. -/
theorem leftPart?_sound (h : leftPart? cs = some (left, p, rest)) :
    ∃ l mid, LeftPart l left p ∧ Lexes cs l mid ∧ skipGaps rest = skipGaps mid := by
  simp only [leftPart?, Option.bind_eq_bind, Option.bind_eq_some_iff] at h
  obtain ⟨⟨c, m⟩, hc, h⟩ := h
  obtain ⟨m', hrow, hm'⟩ := row_sound m
  have hsymbol := symbol?_eq_some_iff.1 hc
  split at h
  · -- the row was a left context
    next r hbefore =>
    obtain ⟨⟨p', r'⟩, hp, h⟩ := Option.bind_eq_some_iff.1 h
    obtain ⟨rfl, rfl, rfl⟩ : some (c :: (row m).1) = left ∧ p' = p ∧ r' = rest := by simpa using h
    have hbefore' : (Terminal.mark .before).Next m' r := by
      simp only [hm', mark?_skipGaps] at hbefore
      exact mark?_eq_some_iff.1 hbefore
    refine ⟨_, r', .after (by simp) p', ?_, rfl⟩
    rw [List.map_cons, List.cons_append]
    exact .cons hsymbol (hrow.append (.cons hbefore' (.one (symbol?_eq_some_iff.1 hp))))
  · -- the row was a single symbol, the predecessor
    split at h
    · next hnil =>
      obtain ⟨rfl, rfl, rfl⟩ : none = left ∧ c = p ∧ (row m).2 = rest := by simpa using h
      rw [hnil] at hrow
      cases hrow
      refine ⟨_, m, .alone c, .one hsymbol, ?_⟩
      rw [hm', Token.skipGaps_skipGaps]
    · simp at h

/-- A left part is taken as it is, if what follows it ends a row. -/
theorem leftPart?_complete {t : Terminal} (h : LeftPart l left p) (hlexes : Lexes cs l mid)
    (ht : EndsRow t) (hbefore : t ≠ .mark .before) (hnext : t.Next mid rest) :
    ∃ r, leftPart? cs = some (left, p, r) ∧ skipGaps r = skipGaps mid := by
  cases h with
  | alone =>
    obtain ⟨_, hp, hnil⟩ := hlexes.exists_of_cons
    cases hnil
    -- the row after the predecessor is empty
    have hnone : Lexes mid (([] : List Char).map .symbol) mid := .nil mid
    have hrow : row mid = ([], skipGaps mid) :=
      row_complete hnone (ht.rowEnds hnext) fun h => absurd rfl h
    have hmark : mark? '<' (skipGaps mid) = none := by
      rw [mark?_skipGaps]
      exact mark?_eq_none (not_mark (m := .before) ht hbefore hnext (by simp))
    refine ⟨skipGaps mid, ?_, Token.skipGaps_skipGaps mid⟩
    simp [leftPart?, symbol?_eq_some_iff.2 hp, hrow, hmark]
  | @after cs' nonempty =>
    obtain ⟨c, cs', rfl⟩ := List.exists_cons_of_ne_nil nonempty
    obtain ⟨m, hc, hmore⟩ := Chain.exists_of_cons hlexes
    obtain ⟨m', hsymbols, hmore⟩ := hmore.exists_of_append
    obtain ⟨m'', hmark, hmore⟩ := hmore.exists_of_cons
    obtain ⟨_, hp, hnil⟩ := hmore.exists_of_cons
    cases hnil
    -- the row reaches just to the mark, because no symbol and no arrow starts like it
    have hskip : skipGaps m' = '<' :: m'' := hmark
    have hrow : row m = (cs', skipGaps m') :=
      row_complete hsymbols (EndsRow.rowEnds (.inl rfl) hmark) fun _ r hr => by simp [hskip] at hr
    have hbefore' : mark? '<' (skipGaps m') = some m'' := by
      rw [mark?_skipGaps]
      exact mark?_eq_some_iff.2 hskip
    refine ⟨mid, ?_, rfl⟩
    simp [leftPart?, symbol?_eq_some_iff.2 hc, hrow, hbefore', symbol?_eq_some_iff.2 hp]

/-- What is taken for a right part is one. -/
theorem rightPart?_sound (h : rightPart? cs = some (right, rest)) :
    ∃ r mid, RightPart r right ∧ Lexes cs r mid ∧ skipGaps rest = skipGaps mid := by
  unfold rightPart? at h
  split at h
  · next m hafter =>
    simp only [Option.bind_eq_bind, Option.bind_eq_some_iff] at h
    obtain ⟨⟨c, m'⟩, hc, h⟩ := h
    obtain ⟨rfl, rfl⟩ : some (c :: (row m').1) = right ∧ (row m').2 = rest := by simpa using h
    obtain ⟨m'', hrow, hm''⟩ := row_sound m'
    have hafter' : (Terminal.mark .after).Next cs m := mark?_eq_some_iff.1 hafter
    refine ⟨_, m'', .present (by simp), .cons hafter' (.cons (symbol?_eq_some_iff.1 hc) hrow), ?_⟩
    rw [hm'', Token.skipGaps_skipGaps]
  · obtain ⟨rfl, rfl⟩ : none = right ∧ cs = rest := by simpa using h
    exact ⟨[], cs, .absent, .nil cs, rfl⟩

/-- A right part is taken as it is. -/
theorem rightPart?_complete {t : Terminal} (h : RightPart r right) (hlexes : Lexes cs r mid)
    (ht : EndsRow t) (hafter : t ≠ .mark .after) (hnext : t.Next mid rest) :
    ∃ r, rightPart? cs = some (right, r) ∧ skipGaps r = skipGaps mid := by
  have hmid := not_mark (m := .after) ht hafter hnext (by simp)
  cases h with
  | absent =>
    cases hlexes
    have hmark : mark? '>' cs = none := mark?_eq_none hmid
    exact ⟨cs, by simp [rightPart?, hmark], rfl⟩
  | @present symbols nonempty =>
    obtain ⟨c, symbols, rfl⟩ := List.exists_cons_of_ne_nil nonempty
    obtain ⟨m, hmark, hmore⟩ := hlexes.exists_of_cons
    obtain ⟨m', hc, hmore⟩ := Chain.exists_of_cons hmore
    have hrow : row m' = (symbols, skipGaps mid) :=
      row_complete hmore (ht.rowEnds hnext) fun _ => hmid
    have hmark' : mark? '>' cs = some m := mark?_eq_some_iff.2 hmark
    refine ⟨skipGaps mid, ?_, Token.skipGaps_skipGaps mid⟩
    simp [rightPart?, hmark', symbol?_eq_some_iff.2 hc, hrow]

end Contexts

/-! ### Whole rules -/

section Whole

variable {cs rest : List Char} {w : Written}

/-- The parts that are read are those of a sentence. -/
theorem written_sound (h : Written.ofChars? cs = some w) :
    ∃ ts rest, Lexes cs ts rest ∧ skipGaps rest = [] ∧ Sentence ts w := by
  simp only [Written.ofChars?, Option.bind_eq_bind, Option.bind_eq_some_iff] at h
  obtain ⟨⟨left, p, c₁⟩, hleft, ⟨params, c₂⟩, hparams, ⟨right, c₃⟩, hright, ⟨ss, c₄⟩, hsections,
    us, htemplates, h⟩ := h
  obtain rfl := Option.some.inj h
  -- each part is found where the one before it has ended, up to spaces and tabs
  obtain ⟨l, m₁, hl, hlexes₁, heq₁⟩ := leftPart?_sound hleft
  obtain ⟨b, hb, hlexes⟩ := parenthesized?_sound paramName_reader hparams
  obtain ⟨m₂, hlexes₂, heq₂⟩ := hlexes.of_skipGaps heq₁.symm
  obtain ⟨r, m, hr, hlexes, heq₃⟩ := rightPart?_sound hright
  obtain ⟨m₃, hlexes₃, heq₃'⟩ := hlexes.of_skipGaps heq₂
  obtain ⟨s, hs, hlexes⟩ := sections?_sound hsections
  obtain ⟨m₄, hlexes₄, heq₄⟩ := hlexes.of_skipGaps (heq₃'.trans heq₃.symm)
  obtain ⟨u, rest, hu, hlexes, hgaps⟩ := templates_iff.1 htemplates
  obtain ⟨rest', hlexes₅, heq₅⟩ := hlexes.of_skipGaps heq₄
  refine ⟨_, rest', ?_, heq₅.trans hgaps, .mk hl hb hr hs hu⟩
  have htail : Lexes m₃ (s ++ Terminal.token .arrow :: u) rest' := by
    rw [← List.singleton_append, ← List.append_assoc]
    exact hlexes₄.append hlexes₅
  exact hlexes₁.append (hlexes₂.append (hlexes₃.append htail))

/-- A terminal that ends a row and is no parenthesis does not start with one. -/
theorem EndsRow.not_lparen {t : Terminal} (ht : EndsRow t) (hne : t ≠ .token .lparen)
    (h : t.Next cs rest) (mid : List Char) : skipGaps cs ≠ '(' :: mid := by
  intro hparen
  have hnext : next? cs = some (.lparen, mid) := mark?_lparen.1 (mark?_eq_some_iff.2 hparen)
  rcases ht with rfl | rfl | ⟨u, rfl, -⟩
  · rw [show skipGaps cs = '<' :: rest from h] at hparen
    simp at hparen
  · rw [show skipGaps cs = '>' :: rest from h] at hparen
    simp at hparen
  · rw [show next? cs = some (u, rest) from h] at hnext
    obtain ⟨rfl, -⟩ := Prod.mk.inj (Option.some.inj hnext)
    exact hne rfl

/-- After a right context a colon or the arrow stands. -/
theorem exists_head_sections {s : List Terminal} {ss : List Section}
    (h : Repeated SectionPart s ss) (us : List Terminal) :
    ∃ t vs, s ++ Terminal.token .arrow :: us = t :: vs ∧ EndsRow t ∧ t ≠ .mark .before ∧
      t ≠ .mark .after ∧ t ≠ .token .lparen := by
  obtain ⟨t, vs, heq, ht⟩ := h.exists_head us
  rcases ht with rfl | rfl
  · exact ⟨_, vs, heq, .inr (.inr ⟨_, rfl, by simp⟩), by simp, by simp, by simp⟩
  · exact ⟨_, vs, heq, .inr (.inr ⟨_, rfl, by simp⟩), by simp, by simp, by simp⟩

/-- After the names besides these the mark of a right context may stand. -/
theorem RightPart.exists_head {r : List Terminal} {right : Option (List Char)}
    (h : RightPart r right) {tail : List Terminal}
    (htail : ∃ t vs, tail = t :: vs ∧ EndsRow t ∧ t ≠ .mark .before ∧ t ≠ .mark .after ∧
      t ≠ .token .lparen) :
    ∃ t vs, r ++ tail = t :: vs ∧ EndsRow t ∧ t ≠ .mark .before ∧ t ≠ .token .lparen := by
  cases h with
  | absent =>
    obtain ⟨t, vs, rfl, hends, hbefore, -, hparen⟩ := htail
    exact ⟨t, vs, rfl, hends, hbefore, hparen⟩
  | present => exact ⟨_, _, rfl, .inr (.inl rfl), by simp, by simp⟩

/-- After a predecessor a list of names may start, too. -/
theorem Parenthesized.exists_head {α : Type} {Item : List Terminal → α → Prop} {b : List Terminal}
    {as : List α} (h : Parenthesized Item b as) {tail : List Terminal}
    (htail : ∃ t vs, tail = t :: vs ∧ EndsRow t ∧ t ≠ .mark .before ∧ t ≠ .token .lparen) :
    ∃ t vs, b ++ tail = t :: vs ∧ EndsRow t ∧ t ≠ .mark .before := by
  cases h with
  | absent =>
    obtain ⟨t, vs, rfl, hends, hbefore, -⟩ := htail
    exact ⟨t, vs, rfl, hends, hbefore⟩
  | empty => exact ⟨_, _, rfl, .inr (.inr ⟨_, rfl, .inl rfl⟩), by simp⟩
  | list => exact ⟨_, _, rfl, .inr (.inr ⟨_, rfl, .inl rfl⟩), by simp⟩

/-- The terminals of a sentence are read as its parts. -/
theorem written_complete {ts : List Terminal} (h : Sentence ts w) (hlexes : Lexes cs ts rest)
    (hgaps : skipGaps rest = []) : Written.ofChars? cs = some w := by
  cases h with
  | @mk l b r s u w left params right sections successor =>
    obtain ⟨m₁, hl, hlexes₁⟩ := hlexes.exists_of_append
    obtain ⟨m₂, hb, hlexes₂⟩ := hlexes₁.exists_of_append
    obtain ⟨m₃, hr, hlexes₃⟩ := hlexes₂.exists_of_append
    -- what follows each part
    have hhead₃ := exists_head_sections sections u
    have hhead₂ := right.exists_head hhead₃
    have hhead₁ := params.exists_head hhead₂
    obtain ⟨t₁, vs₁, heq₁, hends₁, hbefore₁⟩ := hhead₁
    obtain ⟨t₂, vs₂, heq₂, hends₂, -, hparen₂⟩ := hhead₂
    obtain ⟨t₃, vs₃, heq₃, hends₃, -, hafter₃, -⟩ := hhead₃
    obtain ⟨_, hnext₁, -⟩ := (heq₁ ▸ hlexes₁).exists_of_cons
    obtain ⟨_, hnext₂, -⟩ := (heq₂ ▸ hlexes₂).exists_of_cons
    obtain ⟨_, hnext₃, -⟩ := (heq₃ ▸ hlexes₃).exists_of_cons
    -- the readers one after the other, each started where the one before it has stopped
    obtain ⟨c₁, hleft, hc₁⟩ := leftPart?_complete left hl hends₁ hbefore₁ hnext₁
    obtain ⟨c₂, hb, hc₂⟩ := Lexes.of_skipGaps hb hc₁
    have hparams := parenthesized?_complete paramName_reader params hb
      (hends₂.not_lparen hparen₂ (hnext₂.of_skipGaps hc₂))
    obtain ⟨m₃', hr, hm₃⟩ := Lexes.of_skipGaps hr hc₂
    obtain ⟨c₃, hright, hc₃⟩ := rightPart?_complete right hr hends₃ hafter₃ (hnext₃.of_skipGaps hm₃)
    obtain ⟨rest', htail, hrest⟩ := Lexes.of_skipGaps hlexes₃ (hc₃.trans hm₃)
    rw [← List.singleton_append, ← List.append_assoc] at htail
    obtain ⟨c₄, hs, hu⟩ := htail.exists_of_append
    have hsections := sections?_complete sections hs (Nat.lt_succ_self _)
    have htemplates := templates_iff.2 ⟨u, rest', successor, hu, hrest.trans hgaps⟩
    simp [Written.ofChars?, hleft, hparams, hright, hsections, htemplates]

/-- **Reading a rule.** The parts that are read from a text are those that it has by its grammar, and
a text from which none are read has not the form of a rule. -/
theorem reading_iff (s : String) (w : Written) :
    Reading s w ↔ Written.ofChars? s.toList = some w := by
  rw [reading_iff_lexes]
  constructor
  · rintro ⟨ts, rest, hlexes, hgaps, hsentence⟩
    exact written_complete hsentence hlexes hgaps
  · exact written_sound

end Whole

end Rule

end Arbor
