import Arbor.Proofs.Expr.Derivation

/-!
# What parsing an expression means

`Expr.parse_derivation` says what `parse` does to every text. A text is split into tokens
(`Token.Splits`): spaces and tabs are skipped, and each token is the longest that starts where it
stands, of those that expressions are made of. A text has at most one such split, a row of tokens at
most one derivation, and `parse` gives the tree of the derivation of the split; without a split, or
without a derivation, it fails.

The reader knows three tokens more than expressions have, because a rule goes on with them: the
comma, the colon and the arrow. Only the arrow could be in the way, since it starts like a minus
(`Token.Munch.next?_or_arrow`). But in an expression an operand follows every minus, and no operand
starts like the other half of an arrow (`Token.Munch.next?_of_operand`).
-/

namespace Arbor

/-! ### The split of a text -/

namespace Token

/-- The tokens that expressions are made of. -/
def isExpression : Token → Bool
  | .comma | .colon | .arrow => false
  | _ => true

/-- **Longest match.** Of the tokens of expressions, `t` is one with the longest lexeme at the start
of `cs`, where only spaces and tabs are skipped; `rest` follows it. -/
structure Munch (t : Token) (cs rest : List Char) : Prop where
  expression : t.isExpression = true
  lexeme : ∃ l, t.Lexeme l ∧ skipGaps cs = l ++ rest
  longest : ∀ (u : Token) l' rest', u.isExpression = true → u.Lexeme l' →
    skipGaps cs = l' ++ rest' → rest.length ≤ rest'.length

/-- **Splits.** The text is split into the tokens, each the longest match where the one before it
ends. -/
def Splits (cs : List Char) (ts : List Token) : Prop :=
  ∃ rest, Chain Munch cs ts rest ∧ skipGaps rest = []

section Splitting

variable {t u : Token} {ts us : List Token} {cs mid rest rest' : List Char}

/-- The longest match is one token, and one lexeme of it. -/
theorem Munch.unique (h : Munch t cs rest) (h' : Munch u cs rest') : t = u ∧ rest = rest' := by
  obtain ⟨l, hl, hcs⟩ := h.lexeme
  obtain ⟨l', hl', hcs'⟩ := h'.lexeme
  -- either lexeme is at most as long as the other, and both start the same text
  have hle := h.longest u l' rest' h'.expression hl' hcs'
  have hge := h'.longest t l rest h.expression hl hcs
  rw [hcs] at hcs'
  obtain ⟨rfl, rfl⟩ := List.append_inj' hcs' (Nat.le_antisymm hle hge)
  exact ⟨hl.unique hl', rfl⟩

/-- **A text has one split.** -/
theorem Splits.unique (h : Splits cs ts) (h' : Splits cs us) : ts = us := by
  obtain ⟨rest, hchain, hgaps⟩ := h
  obtain ⟨rest', hchain', hgaps'⟩ := h'
  -- no token starts where only gaps are left
  have hnone : ∀ {t : Token} {cs mid : List Char}, Munch t cs mid → skipGaps cs ≠ [] := by
    intro t cs mid hmunch hnil
    obtain ⟨l, hl, hcs⟩ := hmunch.lexeme
    rw [hnil] at hcs
    exact hl.ne_nil (List.append_eq_nil_iff.1 hcs.symm).1
  induction hchain generalizing us with
  | nil cs =>
    cases hchain' with
    | nil => rfl
    -- the second split takes a token where the first finds none
    | cons first more => exact absurd hgaps (hnone first)
  | cons first more ih =>
    cases hchain' with
    | nil => exact absurd hgaps' (hnone first)
    | cons first' more' =>
      -- both take the same token first, so their rests are splits of one text
      obtain ⟨rfl, rfl⟩ := first.unique first'
      rw [ih hgaps more']

/-- What the reader takes is the longest match, if it is a token of expressions. -/
theorem munch_of_next? (h : next? cs = some (t, rest)) (ht : t.isExpression = true) :
    Munch t cs rest := by
  refine ⟨ht, exists_lexeme_of_next? h, fun u l' rest' _ hl' hcs' => ?_⟩
  -- a longer lexeme would have been read instead
  obtain ⟨v, r, hnext, hle, -⟩ := next?_of_lexeme hl' hcs'
  rw [h] at hnext
  obtain ⟨rfl, rfl⟩ := Prod.mk.inj (Option.some.inj hnext)
  exact hle

/-- What starts like a comma, a colon or an arrow is that, or a minus before a `>`. -/
theorem Lexeme.sub_of_head {l l' : List Char} (h : Lexeme t l) (ht : t.isExpression = true)
    (h' : Lexeme u l') (hu : u.isExpression = false) (heq : l ++ rest = l' ++ rest') :
    t = .op .sub ∧ rest.head? = some '>' := by
  have hne := h.ne_nil
  -- both lexemes start with the same character
  have hstart : ∀ c r, l' ++ rest' = c :: r → ∃ k, l = c :: k ∧ k ++ rest = r := by
    intro c r hcr
    obtain ⟨d, k, rfl⟩ := List.exists_cons_of_ne_nil hne
    obtain ⟨rfl, hk⟩ := List.cons.inj (heq.trans hcr)
    exact ⟨k, rfl, hk⟩
  cases h' with
  | comma =>
    obtain ⟨k, rfl, -⟩ := hstart _ _ rfl
    -- only a comma is written so, and that is no token of expressions
    rcases h.punctuation (by decide) (by decide) with hs | ⟨d, hp⟩
    · obtain rfl : Token.comma = t := Option.some.inj hs
      exact absurd ht (by decide)
    · simp [pair?] at hp
  | colon =>
    obtain ⟨k, rfl, -⟩ := hstart _ _ rfl
    -- only a colon is written so
    rcases h.punctuation (by decide) (by decide) with hs | ⟨d, hp⟩
    · obtain rfl : Token.colon = t := Option.some.inj hs
      exact absurd ht (by decide)
    · simp [pair?] at hp
  | arrow =>
    obtain ⟨k, rfl, hk⟩ := hstart _ _ rfl
    rcases h.punctuation (by decide) (by decide) with hs | ⟨d, hp⟩
    · obtain rfl : Token.op .sub = t := Option.some.inj hs
      -- the minus is one character, so the other half of the arrow follows it
      cases h
      rw [List.nil_append] at hk
      exact ⟨rfl, by rw [hk]; rfl⟩
    · unfold pair? at hp
      split at hp
      -- the reader has taken an arrow, which is no token of expressions
      case h_7 =>
        obtain rfl : Token.arrow = t := Option.some.inj hp
        exact absurd ht (by decide)
      all_goals simp_all
  | number | name | truth | op | bang | lparen | rparen => exact absurd hu (by simp [isExpression])

/-- The longest match is what the reader takes, but for a minus that is the first half of an arrow. -/
theorem Munch.next?_or_arrow (h : Munch t cs rest) :
    next? cs = some (t, rest) ∨ t = .op .sub ∧ rest.head? = some '>' := by
  obtain ⟨l, hl, hcs⟩ := h.lexeme
  obtain ⟨u, rest', hnext, hle, -⟩ := next?_of_lexeme hl hcs
  by_cases hu : u.isExpression = true
  · -- the token that was read is one of expressions, so it is the longest match
    obtain ⟨rfl, rfl⟩ := h.unique (munch_of_next? hnext hu)
    exact .inl hnext
  · -- it is not, and starts like one that is
    obtain ⟨l', hl', hcs'⟩ := exists_lexeme_of_next? hnext
    rw [hcs] at hcs'
    exact .inr (hl.sub_of_head h.expression hl' (Bool.eq_false_iff.2 hu) hcs')

/-- Where an operand follows it, a minus is no first half of an arrow. -/
theorem Munch.next?_of_operand (h : Munch t cs mid) (hu : Munch u mid rest)
    (hstart : u.startsOperand = true) : next? cs = some (t, mid) := by
  rcases h.next?_or_arrow with hnext | ⟨-, hhead⟩
  · exact hnext
  · -- the operand would have to start with the other half of the arrow
    obtain ⟨l, hl, hcs⟩ := hu.lexeme
    exact absurd hhead (hl.head?_ne hstart hcs (.inl rfl))

/-- A token other than a minus is no half of anything. -/
theorem Munch.next? (h : Munch t cs rest) (ht : t ≠ .op .sub) : next? cs = some (t, rest) :=
  h.next?_or_arrow.resolve_right fun hsub => ht hsub.1

/-- What the reader takes is split so, if it is all of expressions. -/
theorem Reads.munches (h : Reads cs ts rest) (hts : ∀ t ∈ ts, t.isExpression = true) :
    Chain Munch cs ts rest := by
  induction h with
  | nil cs => exact .nil cs
  | cons first _ ih =>
    exact .cons (munch_of_next? first (hts _ List.mem_cons_self))
      (ih fun t ht => hts t (List.mem_cons_of_mem _ ht))

end Splitting

end Token

namespace Expr

open Token (Munch Splits Reads skipGaps next?)

variable {l : Level} {ts us : List Token} {cs mid rest : List Char} {e : Expr} {t : Token}

/-- Derivations have tokens of expressions only. -/
theorem Derives.isExpression (h : Derives l ts e) : ∀ t ∈ ts, t.isExpression = true := by
  induction h with
  | tighter _ _ ih => exact ih
  | chain _ _ _ iha ihb | compare _ _ _ iha ihb | power _ _ iha ihb =>
    intro t ht
    rcases List.mem_append.1 ht with ht | ht
    · exact iha t ht
    · -- the operator between the two operands
      rcases List.mem_cons.1 ht with rfl | ht
      · rfl
      · exact ihb t ht
  | not _ ih | minus _ ih =>
    intro t ht
    rcases List.mem_cons.1 ht with rfl | ht
    · -- the sign before the operand
      rfl
    · exact ih t ht
  | number | truth | var =>
    intro t ht
    obtain rfl := List.mem_singleton.1 ht
    rfl
  | paren _ ih =>
    intro t ht
    rcases List.mem_cons.1 ht with rfl | ht
    · rfl
    rcases List.mem_append.1 ht with ht | ht
    · exact ih t ht
    · obtain rfl := List.mem_singleton.1 ht
      rfl

/-- The reader takes a token that an expression follows as the split has it. -/
theorem Derives.next?_before (h : Derives l us e) (hus : Chain Munch mid us rest)
    (ht : Munch t cs mid) : next? cs = some (t, mid) := by
  obtain ⟨u, us, rfl, hstart, -⟩ := h.exists_head
  obtain ⟨m, hu, -⟩ := hus.exists_of_cons
  exact ht.next?_of_operand hu hstart

/-- The reader takes the tokens of a derivation as the split has them. -/
theorem Derives.reads (h : Derives l ts e) (hts : Chain Munch cs ts rest) : Reads cs ts rest := by
  induction h generalizing cs rest with
  | tighter _ _ ih => exact ih hts
  | chain _ _ right iha ihb | compare _ _ right iha ihb | power _ right iha ihb =>
    obtain ⟨mid, hleft, hmore⟩ := hts.exists_of_append
    -- an operand follows the operator, so it is read as the split has it
    obtain ⟨mid', hop, hright⟩ := hmore.exists_of_cons
    exact (iha hleft).append (.cons (right.next?_before hright hop) (ihb hright))
  | not operand ih | minus operand ih =>
    obtain ⟨mid, hop, hoperand⟩ := hts.exists_of_cons
    -- an operand follows the sign as well
    exact .cons (operand.next?_before hoperand hop) (ih hoperand)
  | number | truth | var =>
    obtain ⟨mid, hatom, hnil⟩ := hts.exists_of_cons
    cases hnil
    exact .one (hatom.next? (by simp))
  | paren _ ih =>
    obtain ⟨mid, hopen, hmore⟩ := hts.exists_of_cons
    obtain ⟨mid', hinner, hmore⟩ := hmore.exists_of_append
    obtain ⟨mid'', hclose, hnil⟩ := hmore.exists_of_cons
    cases hnil
    exact .cons (hopen.next? (by simp)) ((ih hinner).append (.one (hclose.next? (by simp))))

/-- What a whole text is read as has a derivation from its split, and the other way round. -/
theorem ofChars?_eq_some_iff :
    ofChars? cs = some e ↔ ∃ D : Derivation .disjunction, Splits cs D.tokens ∧ D.tree = e := by
  simp only [ofChars?, Option.bind_eq_bind, Option.bind_eq_some_iff]
  constructor
  · rintro ⟨⟨e', rest⟩, htake, hrest⟩
    -- the text is read up to its end
    obtain ⟨hgaps, rfl⟩ : skipGaps rest = [] ∧ e' = e := by simpa using hrest
    obtain ⟨ts, hreads, hderives⟩ := take?_sound htake
    obtain ⟨D, rfl, htree⟩ := derives_iff_derivation.1 hderives
    exact ⟨D, ⟨rest, hreads.munches hderives.isExpression, hgaps⟩, htree⟩
  · rintro ⟨D, ⟨rest, hchain, hgaps⟩, rfl⟩
    -- behind the split there are gaps only, so no operator
    have hend : ∀ op r, next? rest ≠ some (.op op, r) := by simp [next?, hgaps]
    exact ⟨⟨D.tree, rest⟩, take?_complete D.derives (D.derives.reads hchain) hend, by simp [hgaps]⟩

/-- A text is parsed just if it is read as a whole. -/
theorem parse_eq_ok_iff {s : String} : parse s = .ok e ↔ ofChars? s.toList = some e := by
  unfold parse
  split
  · next h => simp [h]
  · next h => simp [h]

/-- **Parsing.** A text is accepted just if its split is a sentence, and then the result is the tree of
the derivation of that sentence; any other text is refused. A text has at most one split, and a
sentence one derivation. -/
theorem parse_derivation (s : String) :
    (∀ e, parse s = .ok e ↔
      ∃ D : Derivation .disjunction, Splits s.toList D.tokens ∧ D.tree = e) ∧
    ((∀ D : Derivation .disjunction, ¬ Splits s.toList D.tokens) → parse s = .error ⟨s⟩) ∧
    (∀ ts us, Splits s.toList ts → Splits s.toList us → ts = us) ∧
    ∀ D D' : Derivation .disjunction, D.tokens = D'.tokens → D = D' := by
  refine ⟨fun e => parse_eq_ok_iff.trans ofChars?_eq_some_iff, fun hnone => ?_,
    fun ts us => Splits.unique, fun D D' => Derivation.tokens_inj⟩
  have hnone : ofChars? s.toList = none := by
    -- what is read would have a derivation, and its split would be a sentence
    rw [Option.eq_none_iff_forall_ne_some]
    intro e he
    obtain ⟨D, hD, -⟩ := ofChars?_eq_some_iff.1 he
    exact hnone D hD
  rw [parse, hnone]

end Expr

end Arbor
