import Arbor.Proofs.Rule.Grammar

/-!
# The phases of a rule

A `Phase` says where in a rule one is: in the row before a predecessor, among the names, where an
operand of an expression has to stand, and so on. It follows from the terminals so far
(`Phase.run`), and it limits those that may come next: every sentence runs through
(`Rule.Sentence.run`), so what may stand in a sentence is allowed by the phase. A phase may allow
more than that. It does not count whether a comparison has been made already, for instance.

Against the phases the two ways of cutting a text are compared: the longest match (`Rule.Scan`), and
what the readers of the parts of a rule do (`Terminal.Next`). The readers take the longest token
where tokens stand and a single character where symbols stand, without looking at what is allowed.
That this comes to the same is due to what can follow: of the terminals that the phase allows after
a shorter one, none starts with the character by which the longer one goes on (`Phase.Awaits`).

* `Rule.Scan.lexes`: what a sentence is cut into by longest match is what the readers see;
* `Rule.scan_of_lexes`: and the other way round.
-/

namespace Arbor

open Token (skipGaps next?)

/-! ### How the readers see a terminal -/

/-- How a terminal is taken from a text. -/
def Terminal.Next : Terminal → List Char → List Char → Prop
  | .symbol c, cs, rest => skipGaps cs = c :: rest ∧ isSymbolChar c = true
  | .mark m, cs, rest => skipGaps cs = m.char :: rest
  | .param s, cs, rest => ∃ t, next? cs = some (t, rest) ∧ t.name? = some s
  | .token t, cs, rest => next? cs = some (t, rest)

/-- The terminals that are taken one after the other. -/
abbrev Lexes : List Char → List Terminal → List Char → Prop := Chain Terminal.Next

/-- Only a word spells a name. -/
theorem Token.Lexeme.identifier {t : Token} {l : List Char} {s : String} (h : t.Lexeme l)
    (hs : t.name? = some s) : Identifier l ∧ s = String.ofList l := by
  cases h with
  | name identifier free =>
    have : String.ofList l = s := by simpa [Token.name?] using hs
    exact ⟨identifier, this.symm⟩
  | truth b =>
    have : (if b then "true" else "false") = s := by simpa [Token.name?] using hs
    exact ⟨identifier_truth b, by rw [← this, String.ofList_toList]⟩
  | _ => simp [Token.name?] at hs

/-- Every terminal is written with some character. -/
theorem Terminal.Lexeme.ne_nil {t : Terminal} {l : List Char} (h : t.Lexeme l) : l ≠ [] := by
  cases h with
  | symbol => simp
  | mark => simp
  | param identifier =>
    obtain ⟨c, cs, rfl, -⟩ := identifier
    simp
  | token lexeme => exact lexeme.ne_nil

/-- A terminal that is a token is written as the token. -/
theorem Terminal.Lexeme.of_token {t : Token} {l : List Char} (h : (Terminal.token t).Lexeme l) :
    t.Lexeme l := by
  cases h with
  | token lexeme => exact lexeme

/-- What is taken is a lexeme. -/
theorem Terminal.Next.exists_lexeme {t : Terminal} {cs rest : List Char} (h : t.Next cs rest) :
    ∃ l, t.Lexeme l ∧ skipGaps cs = l ++ rest := by
  cases t with
  | symbol c => exact ⟨[c], .symbol h.2, h.1⟩
  | mark m => exact ⟨[m.char], .mark m, h⟩
  | param s =>
    obtain ⟨t, ht, hs⟩ := h
    obtain ⟨l, hl, hcs⟩ := Token.exists_lexeme_of_next? ht
    obtain ⟨hid, rfl⟩ := hl.identifier hs
    exact ⟨l, .param hid, hcs⟩
  | token t =>
    obtain ⟨l, hl, hcs⟩ := Token.exists_lexeme_of_next? h
    exact ⟨l, .token hl, hcs⟩

/-- Reading a terminal uses up characters. -/
theorem Terminal.Next.length_lt {t : Terminal} {cs rest : List Char} (h : t.Next cs rest) :
    rest.length < cs.length := by
  obtain ⟨l, hl, hcs⟩ := h.exists_lexeme
  have hpos : 0 < l.length := List.length_pos_iff.2 hl.ne_nil
  have hle := Token.length_skipGaps_le cs
  rw [hcs, List.length_append] at hle
  omega

/-! ### Phases -/

/-- **Phase.** Where in a rule one is. In an expression the number of open parentheses is kept. -/
inductive Phase
  /-- Nothing has been read. -/
  | start
  /-- One symbol has been read: the predecessor, or the first one of a left context. -/
  | first
  /-- After two or more symbols of a left context. -/
  | leftRow
  /-- After `<`. -/
  | center
  /-- After the predecessor, or after its names. -/
  | centered
  /-- Where a name has to stand. -/
  | names
  /-- After a name. -/
  | named
  /-- After `>`. -/
  | right
  /-- After the symbols of a right context. -/
  | rightRow
  /-- Where an operand has to stand. -/
  | operand (depth : Nat)
  /-- After an operand. -/
  | operator (depth : Nat)
  /-- Where a template may start or end. -/
  | placed
  /-- After `~`. -/
  | marked

namespace Phase

/-- The phase after one terminal more. -/
def next : Phase → Terminal → Option Phase
  | start, .symbol _ => some first
  | first, .symbol _ | leftRow, .symbol _ => some leftRow
  | first, .mark .before | leftRow, .mark .before => some center
  | center, .symbol _ => some centered
  | first, .token .lparen | centered, .token .lparen => some names
  | names, .param _ => some named
  | named, .token .comma => some names
  | names, .token .rparen | named, .token .rparen => some centered
  | first, .mark .after | centered, .mark .after => some right
  | right, .symbol _ | rightRow, .symbol _ => some rightRow
  | first, .token .colon | centered, .token .colon | rightRow, .token .colon => some (operand 0)
  | first, .token .arrow | centered, .token .arrow | rightRow, .token .arrow => some placed
  | operand d, .token (.number _) | operand d, .token (.name _) | operand d, .token (.truth _)
  | operand d, .token (.op .mul) => some (operator d)
  | operand d, .token .bang | operand d, .token (.op .sub) => some (operand d)
  | operand d, .token .lparen => some (operand (d + 1))
  | operand _, .token .rparen => some placed
  | operator d, .token (.op _) | operator d, .token .comma | operator d, .token .colon =>
    some (operand d)
  | operator (d + 1), .token .rparen => some (operator d)
  | operator 0, .token .rparen => some placed
  | operator _, .token .arrow => some placed
  | placed, .symbol _ | marked, .symbol _ => some placed
  | placed, .mark .patch => some marked
  | placed, .token .lparen => some (operand 0)
  | _, _ => none

/-- The phase after a row of terminals. -/
def run : Phase → List Terminal → Option Phase
  | ph, [] => some ph
  | ph, t :: ts => (ph.next t).bind fun ph' => ph'.run ts

@[simp] theorem run_nil (ph : Phase) : ph.run [] = some ph := rfl

@[simp] theorem run_cons (ph : Phase) (t : Terminal) (ts : List Terminal) :
    ph.run (t :: ts) = (ph.next t).bind fun ph' => ph'.run ts := rfl

/-- Terminals in two pieces are run one piece after the other. -/
theorem run_append (ph : Phase) (ts us : List Terminal) :
    ph.run (ts ++ us) = (ph.run ts).bind fun ph' => ph'.run us := by
  induction ts generalizing ph with
  | nil => rfl
  | cons t ts ih =>
    rw [List.cons_append, run_cons, run_cons, Option.bind_assoc]
    exact congrArg _ (funext fun ph' => ih ph')

/-! ### Sentences run through -/

/-- An expression leads from before an operand to after one. -/
theorem run_derives {l : Expr.Level} {ts : List Token} {e : Expr} (h : Expr.Derives l ts e)
    (d : Nat) : (operand d).run (ts.map .token) = some (operator d) := by
  induction h generalizing d with
  | tighter _ _ ih => exact ih d
  | chain _ _ _ iha ihb => simp [run_append, iha, ihb, next]
  | not _ ih => simp [next, ih]
  | compare _ _ _ iha ihb => simp [run_append, iha, ihb, next]
  | minus _ ih => simp [next, ih]
  | power _ _ iha ihb => simp [run_append, iha, ihb, next]
  | number => rfl
  | truth => rfl
  | var => rfl
  | paren _ ih => simp [run_append, ih, next]

/-- A row of symbols is run in one phase. -/
theorem run_symbols {ph : Phase} (hph : ∀ c, ph.next (.symbol c) = some ph) (cs : List Char) :
    ph.run (cs.map .symbol) = some ph := by
  induction cs with
  | nil => rfl
  | cons c cs ih => rw [List.map_cons, run_cons, hph c]; exact ih

/-- The phases in which a colon or the arrow may stand. -/
inductive Open : Phase → Prop
  | first : Open first
  | centered : Open centered
  | rightRow : Open rightRow
  | operator : Open (operator 0)

/-- Where a section may begin a colon is awaited. -/
theorem Open.next_colon {ph : Phase} (h : ph.Open) : ph.next (.token .colon) = some (operand 0) := by
  cases h <;> rfl

/-- Where a section may begin the arrow is awaited too. -/
theorem Open.next_arrow {ph : Phase} (h : ph.Open) : ph.next (.token .arrow) = some placed := by
  cases h <;> rfl

end Phase

namespace Rule

open Phase

/-- A left part leaves the predecessor as the first symbol or as one in the middle. -/
theorem LeftPart.run {l : List Terminal} {left : Option (List Char)} {p : Char}
    (h : LeftPart l left p) : start.run l = some first ∨ start.run l = some centered := by
  cases h with
  | alone => exact .inl rfl
  | @after cs nonempty p =>
    -- the first symbol has a phase of its own, since it may turn out to be the predecessor
    obtain ⟨c, cs, rfl⟩ := List.exists_cons_of_ne_nil nonempty
    refine .inr ?_
    cases cs with
    | nil => rfl
    | cons d cs =>
      have hrow : leftRow.run (cs.map .symbol) = some leftRow := run_symbols (fun _ => rfl) cs
      simp [run_append, next, hrow]

/-- Names run to the end of a list of names. -/
theorem Listed.run_names {ts : List Terminal} {as : List String} (h : Listed ParamName ts as) :
    names.run ts = some named := by
  induction h with
  | one item => cases item; rfl
  | more item _ ih => cases item; simp [next, ih]

/-- Parameters, if there are any, leave a symbol in the middle. -/
theorem Parenthesized.run_names {b : List Terminal} {as : List String}
    (h : Parenthesized ParamName b as) {ph : Phase} (hph : ph = first ∨ ph = centered) :
    ph.run b = some first ∨ ph.run b = some centered := by
  -- parameters are opened alike after a first symbol and after one in the middle
  have hopen : ph.next (.token .lparen) = some names := by rcases hph with rfl | rfl <;> rfl
  cases h with
  | absent => rcases hph with rfl | rfl <;> simp
  | empty =>
    refine .inr ?_
    rw [run_cons, hopen]
    rfl
  | list items =>
    refine .inr ?_
    rw [run_cons, hopen, Option.bind_some, run_append, items.run_names]
    rfl

/-- A right part leaves a phase in which a section may begin. -/
theorem RightPart.run {r : List Terminal} {right : Option (List Char)} (h : RightPart r right)
    {ph : Phase} (hph : ph = first ∨ ph = centered) : ∃ ph', ph.run r = some ph' ∧ ph'.Open := by
  cases h with
  | absent =>
    rcases hph with rfl | rfl
    · exact ⟨_, rfl, .first⟩
    · exact ⟨_, rfl, .centered⟩
  | @present cs nonempty =>
    have hafter : ph.next (.mark .after) = some Phase.right := by rcases hph with rfl | rfl <;> rfl
    obtain ⟨c, cs, rfl⟩ := List.exists_cons_of_ne_nil nonempty
    refine ⟨rightRow, ?_, .rightRow⟩
    -- after the mark there is a row of symbols, of which the first is needed
    have hrow : rightRow.run (cs.map .symbol) = some rightRow := run_symbols (fun _ => rfl) cs
    rw [run_cons, hafter]
    exact hrow

/-- A section leads to the end of an operand. -/
theorem SectionPart.run {s : List Terminal} {x : Section} (h : SectionPart s x) {ph : Phase}
    (hph : ph.Open) : ph.run s = some (operator 0) := by
  cases h with
  | always =>
    rw [run_cons, hph.next_colon]
    rfl
  | expr phrase =>
    obtain ⟨derives⟩ := phrase
    rw [run_cons, hph.next_colon]
    exact run_derives derives 0

/-- Sections lead from one open phase to another. -/
theorem Repeated.run_sections {s : List Terminal} {xs : List Section}
    (h : Repeated SectionPart s xs) {ph : Phase} (hph : ph.Open) :
    ∃ ph', ph.run s = some ph' ∧ ph'.Open := by
  induction h generalizing ph with
  | nil => exact ⟨ph, rfl, hph⟩
  | cons item _ ih =>
    rw [run_append, item.run hph]
    exact ih .operator

/-- Arguments run from an operand to the end of one. -/
theorem Listed.run_arguments {ts : List Terminal} {es : List Expr} (h : Listed Phrase ts es) :
    (operand 0).run ts = some (operator 0) := by
  induction h with
  | one item =>
    obtain ⟨derives⟩ := item
    exact run_derives derives 0
  | more item _ ih =>
    obtain ⟨derives⟩ := item
    simp [run_append, run_derives derives, next, ih]

/-- After the arguments of a symbol another symbol may follow. -/
theorem Parenthesized.run_arguments {b : List Terminal} {es : List Expr}
    (h : Parenthesized Phrase b es) : placed.run b = some placed := by
  cases h with
  | absent => rfl
  | empty => rfl
  | list items => simp [next, run_append, items.run_arguments]

/-- The successor is run in one phase. -/
theorem Repeated.run_templates {u : List Terminal} {ts : List Template}
    (h : Repeated TemplatePart u ts) : placed.run u = some placed := by
  induction h with
  | nil => rfl
  | cons item _ ih =>
    cases item with
    | plain c list => simp [run_append, next, list.run_arguments, ih]
    | patch c list => simp [run_append, next, list.run_arguments, ih]

/-- A sentence runs through all its phases. -/
theorem Sentence.run {ts : List Terminal} {w : Written} (h : Sentence ts w) :
    start.run ts = some placed := by
  cases h with
  | @mk l b r s u w left params right sections successor =>
    -- the phase at each seam between two parts of the rule
    obtain ⟨ph, hl, hph⟩ : ∃ ph, start.run l = some ph ∧ (ph = first ∨ ph = centered) := by
      rcases left.run with hl | hl
      · exact ⟨_, hl, .inl rfl⟩
      · exact ⟨_, hl, .inr rfl⟩
    obtain ⟨ph', hb, hph'⟩ : ∃ ph', ph.run b = some ph' ∧ (ph' = first ∨ ph' = centered) := by
      rcases params.run_names hph with hb | hb
      · exact ⟨_, hb, .inl rfl⟩
      · exact ⟨_, hb, .inr rfl⟩
    obtain ⟨ph₁, hr, hopen₁⟩ := right.run hph'
    obtain ⟨ph₂, hs, hopen₂⟩ := sections.run_sections hopen₁
    simp [run_append, hl, hb, hr, hs, hopen₂.next_arrow, successor.run_templates]

/-- What may stand after `p` is allowed by the phase after `p`. -/
theorem Viable.next {p : List Terminal} {t : Terminal} (h : Viable p t) {ph : Phase}
    (hph : start.run p = some ph) : ∃ ph', ph.next t = some ph' := by
  obtain ⟨rest, w, hsentence⟩ := h
  have hrun := hsentence.run
  rw [run_append, hph, Option.bind_some, run_cons, Option.bind_eq_some_iff] at hrun
  obtain ⟨ph', hnext, -⟩ := hrun
  exact ⟨ph', hnext⟩

end Rule

/-! ### What can follow -/

namespace Phase

/-- **What follows.** The text ends, or it goes on with a terminal that the phase allows. -/
def Awaits (ph : Phase) (cs : List Char) : Prop :=
  skipGaps cs = [] ∨ ∃ t ph' l rest, ph.next t = some ph' ∧ t.Lexeme l ∧ skipGaps cs = l ++ rest

/-- The first character of what follows, if it is no gap, is that of a terminal. -/
theorem Awaits.exists_lexeme {ph : Phase} {c : Char} {cs : List Char} (h : ph.Awaits (c :: cs))
    (hc : Text.isGap c = false) : ∃ t ph' l, ph.next t = some ph' ∧ t.Lexeme (c :: l) := by
  have hskip := Token.skipGaps_cons hc cs
  rcases h with hnil | ⟨t, ph', l, rest, hnext, hl, hcs⟩
  · rw [hskip] at hnil
    simp at hnil
  · obtain ⟨d, l, rfl⟩ := List.exists_cons_of_ne_nil hl.ne_nil
    rw [hskip, List.cons_append] at hcs
    obtain rfl : c = d := (List.cons.inj hcs).1
    exact ⟨t, ph', l, hnext, hl⟩

/-- After an operand only punctuation follows. -/
theorem Awaits.isPunctuation {d : Nat} {c : Char} {cs : List Char}
    (h : (operator d).Awaits (c :: cs)) (hc : Text.isGap c = false) :
    Token.isPunctuation c = true := by
  obtain ⟨t, ph', l, hnext, hl⟩ := h.exists_lexeme hc
  cases t with
  | symbol | mark | param => simp [next] at hnext
  | token t =>
    rcases hl.of_token.shape with ⟨x, hx, hs⟩ | ⟨x, y, hx, hp⟩ | ⟨hid, rfl⟩ | ⟨x, rfl, hnumeral⟩
    · obtain ⟨rfl, rfl⟩ := List.cons.inj hx
      exact Token.isPunctuation_of_single? hs
    · obtain ⟨rfl, rfl⟩ := List.cons.inj hx
      exact Token.isPunctuation_of_pair? hp
    · -- no word follows an operand
      unfold Token.ofName at hnext
      split at hnext
      · simp [next] at hnext
      · split at hnext <;> simp [next] at hnext
    · simp [next] at hnext

/-- Where an operand has to stand, nothing goes on a `<`, a `>`, a `!` or a minus. -/
theorem Awaits.ne_of_operand {d : Nat} {c : Char} {cs : List Char}
    (h : (operand d).Awaits (c :: cs)) : c ≠ '=' ∧ c ≠ '>' := by
  constructor
  · -- only `==` starts so, and it is no operand
    rintro rfl
    obtain ⟨t, ph', l, hnext, hl⟩ := h.exists_lexeme (by decide)
    cases t with
    | symbol | mark | param => simp [next] at hnext
    | token t =>
      obtain rfl := hl.of_token.eq_of_equals
      simp [next] at hnext
  · -- only `>` and `>=` start so, and neither is an operand
    rintro rfl
    obtain ⟨t, ph', l, hnext, hl⟩ := h.exists_lexeme (by decide)
    cases t with
    | symbol | mark | param => simp [next] at hnext
    | token t => rcases hl.of_token.eq_of_greater with rfl | rfl <;> simp [next] at hnext

/-- A name is followed by a comma or the closing parenthesis. -/
theorem Awaits.eq_of_named {c : Char} {cs : List Char} (h : named.Awaits (c :: cs))
    (hc : Text.isGap c = false) : c = ',' ∨ c = ')' := by
  obtain ⟨t, ph', l, hnext, hl⟩ := h.exists_lexeme hc
  cases t with
  | symbol | mark | param => simp [next] at hnext
  | token t =>
    cases t with
    | comma =>
      cases hl.of_token
      exact .inl rfl
    | rparen =>
      cases hl.of_token
      exact .inr rfl
    | _ => simp [next] at hnext

/-- In a row no `>` follows. -/
theorem Awaits.ne_of_row {ph : Phase} (hph : ph = leftRow ∨ ph = rightRow) {cs : List Char} :
    ¬ ph.Awaits ('>' :: cs) := by
  intro h
  obtain ⟨t, ph', l, hnext, hl⟩ := h.exists_lexeme (by decide)
  cases t with
  | symbol c =>
    -- a `>` is no symbol
    generalize hcs : '>' :: l = cs at hl
    cases hl with
    | symbol proper =>
      obtain ⟨rfl, -⟩ := List.cons.inj hcs
      exact absurd proper (by decide)
  | mark m =>
    -- the mark of a right context stands after a predecessor, not in a row
    generalize hcs : '>' :: l = cs at hl
    cases hl with
    | mark =>
      obtain rfl : m = .after := by cases m <;> simp [Mark.char] at hcs ⊢
      rcases hph with rfl | rfl <;> simp [next] at hnext
  | param => rcases hph with rfl | rfl <;> simp [next] at hnext
  | token t =>
    -- nor does a comparison stand there
    rcases hl.of_token.eq_of_greater with rfl | rfl <;> rcases hph with rfl | rfl <;>
      simp [next] at hnext

end Phase

/-! ### The two ways of cutting a text -/

section Cutting

variable {ph ph' : Phase} {t : Terminal} {l cs rest : List Char}

/-- The characters that go on a word are no punctuation. -/
theorem Token.isNameRest_eq_false {c : Char} (h : isPunctuation c = true) : isNameRest c = false := by
  rw [Bool.eq_false_iff]
  intro hc
  rw [not_isPunctuation rfl hc] at h
  exact absurd h (by decide)

/-- No gap belongs to a name. -/
theorem Token.isNameRest_gap {c : Char} (h : Text.isGap c = true) : isNameRest c = false := by
  rw [Bool.eq_false_iff]
  intro hc
  rw [isGap_eq_false rfl rfl hc] at h
  exact absurd h (by decide)

/-- Nothing that may follow an operand prolongs a word. -/
theorem Phase.Awaits.not_isNameRest {d : Nat} (h : (Phase.operator d).Awaits rest) {c : Char}
    (hc : rest.head? = some c) : Token.isNameRest c = false := by
  obtain ⟨r, rfl⟩ := List.head?_eq_some_iff.1 hc
  by_cases hgap : Text.isGap c = true
  · exact Token.isNameRest_gap hgap
  · exact Token.isNameRest_eq_false (h.isPunctuation (by simpa using hgap))

/-- Nothing that may follow an operand prolongs a numeral. -/
theorem Phase.Awaits.numeralEnds {d : Nat} (h : (Phase.operator d).Awaits rest) :
    NumeralEnds rest := by
  intro c hc
  have hrest := h.not_isNameRest hc
  -- digits and the mark of an exponent go on a word too, and a point is no punctuation
  refine ⟨?_, ?_, ?_, ?_⟩
  · rw [Bool.eq_false_iff]
    intro hdigit
    simp [Token.isNameRest, Char.isAlphanum, hdigit] at hrest
  · rintro rfl
    obtain ⟨r, rfl⟩ := List.head?_eq_some_iff.1 hc
    exact absurd (h.isPunctuation (by decide)) (by decide)
  · rintro rfl
    exact absurd hrest (by decide)
  · rintro rfl
    exact absurd hrest (by decide)

/-- Where an operator or a sign of an expression may stand, an operand has to follow. -/
theorem Phase.next_sign {u : Token} (hnext : ph.next (.token u) = some ph')
    (hu : u = .op .lt ∨ u = .op .gt ∨ u = .op .sub ∨ u = .bang) : ∃ d, ph' = .operand d := by
  rcases hu with rfl | rfl | rfl | rfl <;> cases ph <;>
    first
    | exact ⟨_, (Option.some.inj hnext).symm⟩
    | exact absurd hnext (by simp [Phase.next])

/-- A number, a truth value or a name is an operand. -/
theorem Phase.next_literal {u : Token} (hnext : ph.next (.token u) = some ph')
    (hu : (∃ d, u = .number d) ∨ ∃ s, u.name? = some s) : ∃ d, ph' = .operator d := by
  cases u with
  | number | name | truth =>
    cases ph <;>
      first
      | exact ⟨_, (Option.some.inj hnext).symm⟩
      | exact absurd hnext (by simp [Phase.next])
  | _ => simp [Token.name?] at hu

/-- Nothing that may follow a token prolongs it. -/
theorem Phase.ends_of_awaits {u : Token} (hnext : ph.next (.token u) = some ph')
    (h : ph'.Awaits rest) : u.Ends rest := by
  -- after a sign an operand has to stand
  have hsign : (u = .op .lt ∨ u = .op .gt ∨ u = .op .sub ∨ u = .bang) →
      ∀ c, rest.head? = some c → c ≠ '=' ∧ c ≠ '>' := by
    intro hu c hc
    obtain ⟨d, rfl⟩ := next_sign hnext hu
    obtain ⟨r, rfl⟩ := List.head?_eq_some_iff.1 hc
    exact h.ne_of_operand
  cases u with
  | number d =>
    obtain ⟨d, rfl⟩ := next_literal hnext (.inl ⟨d, rfl⟩)
    exact h.numeralEnds
  | name s =>
    obtain ⟨d, rfl⟩ := next_literal hnext (.inr ⟨s, rfl⟩)
    exact fun c => h.not_isNameRest
  | truth b =>
    obtain ⟨d, rfl⟩ := next_literal hnext (.inr ⟨_, rfl⟩)
    exact fun c => h.not_isNameRest
  | bang => exact fun hc => (hsign (by simp) _ hc).1 rfl
  | op o =>
    cases o with
    | lt => exact fun hc => (hsign (by simp) _ hc).1 rfl
    | gt => exact fun hc => (hsign (by simp) _ hc).1 rfl
    | sub => exact fun hc => (hsign (by simp) _ hc).2 rfl
    | _ => exact trivial
  | _ => exact trivial

/-- A lexeme of what the phase allows is taken by the reader, if what follows is allowed too. -/
theorem Terminal.next_of_lexeme (hnext : ph.next t = some ph') (hl : t.Lexeme l)
    (hcs : skipGaps cs = l ++ rest) (h : ph'.Awaits rest) : t.Next cs rest := by
  cases hl with
  | symbol proper => exact ⟨hcs, proper⟩
  | mark m => exact hcs
  | @param l identifier =>
    -- a name of a parameter leads to one phase only, in which no character of a word follows
    obtain rfl : ph' = .named := by
      cases ph <;> first
        | exact (Option.some.inj hnext).symm
        | exact absurd hnext (by simp [Phase.next])
    refine ⟨_, Token.next?_of_identifier_ends identifier hcs fun c hc => ?_, Token.name?_ofName _⟩
    obtain ⟨r, rfl⟩ := List.head?_eq_some_iff.1 hc
    by_cases hgap : Text.isGap c = true
    · exact Token.isNameRest_gap hgap
    · rcases h.eq_of_named (by simpa using hgap) with rfl | rfl <;> decide
  | token lexeme => exact Token.next?_of_lexeme_ends lexeme hcs (Phase.ends_of_awaits hnext h)

/-- Where a symbol or a mark may stand, every terminal is a single character, but for the arrow. -/
theorem Phase.length_beside {u : Terminal} {ph'' : Phase}
    (ht : (∃ c, t = .symbol c) ∨ ∃ m, t = .mark m) (hnext : ph.next t = some ph')
    (hu : ph.next u = some ph'') (hl : u.Lexeme l) (harrow : u ≠ .token .arrow) :
    l.length = 1 := by
  cases hl with
  | symbol => rfl
  | mark => rfl
  | param => rcases ht with ⟨c, rfl⟩ | ⟨m, rfl⟩ <;> cases ph <;> simp [Phase.next] at hnext hu
  | @token v l lexeme =>
    cases v with
    | arrow => exact absurd rfl harrow
    | lparen | rparen | comma | colon | bang => cases lexeme; rfl
    | number | name | truth | op =>
      rcases ht with ⟨c, rfl⟩ | ⟨m, rfl⟩ <;> cases ph <;> simp [Phase.next] at hnext hu

/-- Where a symbol or the arrow may stand, a symbol leads into a row. -/
theorem Phase.row_beside_arrow {c : Char} {ph'' : Phase} (hnext : ph.next (.symbol c) = some ph')
    (harrow : ph.next (.token .arrow) = some ph'') : ph' = .leftRow ∨ ph' = .rightRow := by
  cases ph with
  | first => exact .inl (Option.some.inj hnext).symm
  | rightRow => exact .inr (Option.some.inj hnext).symm
  | start | leftRow | center | right | placed | marked => simp [Phase.next] at harrow
  | _ => simp [Phase.next] at hnext

/-- Where a token is read, every terminal is a single character or takes no more than the token. -/
theorem length_le_of_next? {u : Terminal} {v : Token} {l' rest' : List Char}
    (hv : next? cs = some (v, rest)) (hu : u.Lexeme l') (hcs : skipGaps cs = l' ++ rest') :
    l'.length = 1 ∨ rest.length ≤ rest'.length := by
  have hlongest : ∀ w : Token, w.Lexeme l' → rest.length ≤ rest'.length := by
    intro w hw
    obtain ⟨w', r, hw', hle, -⟩ := Token.next?_of_lexeme hw hcs
    rw [hv] at hw'
    obtain ⟨rfl, rfl⟩ := Prod.mk.inj (Option.some.inj hw')
    exact hle
  cases hu with
  | symbol => exact .inl rfl
  | mark => exact .inl rfl
  | param identifier => exact .inr (hlongest _ (Token.lexeme_ofName identifier))
  | token lexeme => exact .inr (hlongest _ lexeme)

/-- No mark is the first half of an arrow. -/
theorem not_arrow_of_mark {m : Mark} (h : (Terminal.mark m).Next cs rest) (rest' : List Char) :
    skipGaps cs ≠ '-' :: '>' :: rest' := by
  intro harrow
  have hhead : m.char = '-' := by
    rw [show skipGaps cs = m.char :: rest from h] at harrow
    exact (List.cons.inj harrow).1
  cases m <;> exact absurd hhead (by decide)

/-- A symbol is not the first half of an arrow, since what follows would start with the other half. -/
theorem not_arrow_of_symbol {c : Char} {ph'' : Phase} (h : (Terminal.symbol c).Next cs rest)
    (hnext : ph.next (.symbol c) = some ph') (hnext' : ph.next (.token .arrow) = some ph'')
    (hfollow : ph'.Awaits rest) (rest' : List Char) : skipGaps cs ≠ '-' :: '>' :: rest' := by
  intro harrow
  have hrest : rest = '>' :: rest' := by
    rw [h.1] at harrow
    exact (List.cons.inj harrow).2
  rw [hrest] at hfollow
  exact hfollow.ne_of_row (Phase.row_beside_arrow hnext hnext')

/-- What the reader takes is the longest match, whatever may stand besides within the phase. -/
theorem Rule.munch_of_next {may : Terminal → Prop} (ht : may t)
    (hmay : ∀ u, may u → ∃ ph', ph.next u = some ph') (hnext : ph.next t = some ph')
    (h : t.Next cs rest) (hfollow : ph'.Awaits rest) : Rule.Munch may cs t rest := by
  refine ⟨ht, h.exists_lexeme, fun u l' rest' hu hl' hcs' => ?_⟩
  obtain ⟨ph'', hnext'⟩ := hmay u hu
  obtain ⟨l, hl, hcs⟩ := h.exists_lexeme
  have hlen : l.length + rest.length = l'.length + rest'.length := by
    rw [← List.length_append, ← List.length_append, ← hcs, hcs']
  have hpos : 0 < l.length := List.length_pos_iff.2 hl.ne_nil
  -- a single character is never longer than what was taken
  have hsingle : l'.length = 1 → rest.length ≤ rest'.length := fun h1 => by omega
  cases t with
  | token v => exact (length_le_of_next? h hl' hcs').elim hsingle id
  | param s =>
    obtain ⟨v, hv, -⟩ := h
    exact (length_le_of_next? hv hl' hcs').elim hsingle id
  | mark m =>
    by_cases harrow : u = .token .arrow
    · subst harrow
      cases hl'.of_token
      exact absurd hcs' (not_arrow_of_mark h rest')
    · exact hsingle (Phase.length_beside (.inr ⟨m, rfl⟩) hnext hnext' hl' harrow)
  | symbol c =>
    by_cases harrow : u = .token .arrow
    · subst harrow
      cases hl'.of_token
      exact absurd hcs' (not_arrow_of_symbol h hnext hnext' hfollow rest')
    · exact hsingle (Phase.length_beside (.inl ⟨c, rfl⟩) hnext hnext' hl' harrow)

end Cutting

namespace Rule

variable {p ts : List Terminal} {cs : List Char} {ph ph' : Phase}

/-- A scan shows at its start what is awaited there. -/
theorem Scan.awaits (h : Scan p cs ts) (hrun : ph.run ts = some ph') : ph.Awaits cs := by
  cases h with
  | done gaps => exact .inl gaps
  | @step _ ts _ rest t munch _ =>
    obtain ⟨l, hl, hcs⟩ := munch.lexeme
    rw [Phase.run_cons, Option.bind_eq_some_iff] at hrun
    obtain ⟨ph₁, hnext, -⟩ := hrun
    exact .inr ⟨t, ph₁, l, rest, hnext, hl, hcs⟩

/-- What a sentence is cut into by longest match is what the readers see. -/
theorem Scan.lexes (h : Scan p cs ts) (hrun : ph.run ts = some ph') :
    ∃ rest, Lexes cs ts rest ∧ skipGaps rest = [] := by
  induction h generalizing ph with
  | @done _ cs gaps => exact ⟨cs, .nil cs, gaps⟩
  | step munch more ih =>
    -- of the match only the lexeme is needed: the phase after it keeps what follows from prolonging it
    obtain ⟨l, hl, hcs⟩ := munch.lexeme
    rw [Phase.run_cons, Option.bind_eq_some_iff] at hrun
    obtain ⟨ph₁, hnext, hrun⟩ := hrun
    obtain ⟨r, hlexes, hgaps⟩ := ih hrun
    exact ⟨r, .cons (Terminal.next_of_lexeme hnext hl hcs (more.awaits hrun)) hlexes, hgaps⟩

/-- What the readers see of a sentence is cut by longest match. -/
theorem scan_of_lexes {rest : List Char} {w : Written} (hgaps : skipGaps rest = [])
    (h : Lexes cs ts rest) (hsentence : Sentence (p ++ ts) w)
    (hp : Phase.start.run p = some ph) : Scan p cs ts := by
  induction ts generalizing p cs ph with
  | nil =>
    cases h
    exact .done hgaps
  | cons t ts ih =>
    obtain ⟨mid, hfirst, hmore⟩ := h.exists_of_cons
    have hviable : Viable p t := ⟨ts, w, hsentence⟩
    obtain ⟨ph₁, hnext⟩ := hviable.next hp
    have hrun : Phase.start.run (p ++ [t]) = some ph₁ := by
      rw [Phase.run_append, hp, Option.bind_some, Phase.run_cons, hnext]
      rfl
    -- what follows is cut already, so the phase after `t` awaits it
    have hscan : Scan (p ++ [t]) mid ts := ih hmore (by rwa [List.append_assoc]) hrun
    have htail : ph₁.run ts = some .placed := by
      have h := hsentence.run
      rwa [← List.singleton_append, ← List.append_assoc, Phase.run_append, hrun] at h
    exact .step (munch_of_next hviable (fun u hu => hu.next hp) hnext hfirst
      (hscan.awaits htail)) hscan

/-- **Reading by the readers.** A text has the form of a rule with the parts `w` just if the readers
see a sentence with these parts in it. -/
theorem reading_iff_lexes {s : String} {w : Written} :
    Reading s w ↔ ∃ ts rest, Lexes s.toList ts rest ∧ skipGaps rest = [] ∧ Sentence ts w := by
  constructor
  · rintro ⟨ts, hscan, hsentence⟩
    obtain ⟨rest, hlexes, hgaps⟩ := hscan.lexes hsentence.run
    exact ⟨ts, rest, hlexes, hgaps, hsentence⟩
  · rintro ⟨ts, rest, hlexes, hgaps, hsentence⟩
    exact ⟨ts, scan_of_lexes hgaps hlexes (p := []) hsentence rfl, hsentence⟩

end Rule

end Arbor
