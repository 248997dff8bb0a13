import Arbor.Expr.Parser
import Arbor.Proofs.Expr.Lexeme

/-!
# The grammar of expressions

`Derives l ts e` says that the tokens `ts` are an expression of the level `l` whose tree is `e`. It
is the grammar as one writes it down, with left recursion where operators go to the left, and knows
nothing of the reader. The two agree:

* `take?_sound`: what `take?` reads has a derivation from the tokens that it has read;
* `take?_complete`: tokens with a derivation are read as its tree, if no operator follows them.

For the second the reader is asked at one level for tokens that may be only the first part of what
it will read there: with `a` derived, the rest of a chain is still to come. So the statement that
goes through the induction (`Readable`) has the rest of the chain in it: if the reader, holding
`a` after these tokens, goes on to `e` (`Continues`), then started before them it ends at `e`.
`Parses` has the fuel in it, so that its laws, one for each form of the grammar, are free of it. Both
inductions only hand on: `read?_sound` has one lemma for each goal, and `Derives.readable` one for each
form of the grammar.
-/

namespace Arbor

/-! ### Rows of tokens -/

namespace Token

/-- A lexeme has a character at least. -/
theorem Lexeme.ne_nil {t : Token} {l : List Char} (h : Lexeme t l) : l ≠ [] := by
  -- by its shape: one sign, two signs, a word or a numeral
  rcases h.shape with ⟨c, rfl, -⟩ | ⟨c, d, rfl, -⟩ | ⟨⟨c, cs, rfl, -⟩, -⟩ | ⟨d, -, hd⟩
  · simp
  · simp
  · simp
  · obtain ⟨c, cs, rfl, -⟩ := exists_head_of_numeral hd
    simp

/-- Passing over gaps makes no text longer. -/
theorem length_skipGaps_le (cs : List Char) : (skipGaps cs).length ≤ cs.length :=
  (List.dropWhile_sublist _).length_le

/-- To read a token is to take up a character at least. -/
theorem length_lt_of_next? {t : Token} {cs rest : List Char} (h : next? cs = some (t, rest)) :
    rest.length < cs.length := by
  obtain ⟨l, hl, hcs⟩ := exists_lexeme_of_next? h
  have hpos : 0 < l.length := List.length_pos_iff.2 hl.ne_nil
  have hle := length_skipGaps_le cs
  rw [hcs, List.length_append] at hle
  omega

end Token

/-- **Chains.** What `next` takes one after the other from a text, and what follows the last. -/
inductive Chain {τ : Type} (next : τ → List Char → List Char → Prop) :
    List Char → List τ → List Char → Prop
  | nil (cs : List Char) : Chain next cs [] cs
  | cons {t : τ} {ts : List τ} {cs mid rest : List Char} (first : next t cs mid)
      (more : Chain next mid ts rest) : Chain next cs (t :: ts) rest

namespace Chain

variable {τ σ : Type} {next : τ → List Char → List Char → Prop} {t : τ} {ts us : List τ}
  {cs mid rest : List Char}

/-- A single taking is a chain. -/
theorem one (h : next t cs rest) : Chain next cs [t] rest := .cons h (.nil rest)

/-- Chains are put one after the other where the first one stops. -/
theorem append (h : Chain next cs ts mid) (h' : Chain next mid us rest) :
    Chain next cs (ts ++ us) rest := by
  induction h with
  | nil => exact h'
  | cons first _ ih => exact .cons first (ih h')

/-- A chain begins with what is taken first. -/
theorem exists_of_cons (h : Chain next cs (t :: ts) rest) :
    ∃ mid, next t cs mid ∧ Chain next mid ts rest := by
  cases h with
  | cons first more => exact ⟨_, first, more⟩

/-- A chain of two rows stops between them. -/
theorem exists_of_append (h : Chain next cs (ts ++ us) rest) :
    ∃ mid, Chain next cs ts mid ∧ Chain next mid us rest := by
  induction ts generalizing cs with
  | nil => exact ⟨cs, .nil cs, h⟩
  | cons t ts ih =>
    obtain ⟨m, hfirst, hmore⟩ := h.exists_of_cons
    obtain ⟨mid, hts, hus⟩ := ih hmore
    exact ⟨mid, .cons hfirst hts, hus⟩

/-- To take what `f` makes of something is to take it under another name. -/
theorem map_iff {f : σ → τ} {ss : List σ} :
    Chain next cs (ss.map f) rest ↔ Chain (fun s => next (f s)) cs ss rest := by
  induction ss generalizing cs with
  | nil =>
    constructor
    · intro h; cases h; exact .nil _
    · intro h; cases h; exact .nil _
  | cons s ss ih =>
    constructor
    · intro h
      obtain ⟨mid, hfirst, hmore⟩ := h.exists_of_cons
      exact .cons hfirst (ih.1 hmore)
    · intro h
      obtain ⟨mid, hfirst, hmore⟩ := h.exists_of_cons
      exact .cons hfirst (ih.2 hmore)

/-- What holds of all that can be taken holds of what was taken. -/
theorem forall_mem {P : τ → Prop} (hnext : ∀ t cs rest, next t cs rest → P t)
    (h : Chain next cs ts rest) : ∀ t ∈ ts, P t := by
  induction h with
  | nil => exact fun t ht => absurd ht List.not_mem_nil
  | cons first _ ih =>
    intro t ht
    rcases List.mem_cons.1 ht with rfl | ht
    · exact hnext _ _ _ first
    · exact ih t ht

/-- If every step takes up a character at least, the text gets shorter by as many as there are. -/
theorem length_add_le (hnext : ∀ t cs rest, next t cs rest → rest.length < cs.length)
    (h : Chain next cs ts rest) : rest.length + ts.length ≤ cs.length := by
  induction h with
  | nil => simp
  | cons first _ ih =>
    -- the first step takes up one character, and the others as many as they are
    have := hnext _ _ _ first
    rw [List.length_cons]
    omega

end Chain

namespace Token

/-- **Reads.** The tokens that are read one after the other, and what follows the last. -/
abbrev Reads : List Char → List Token → List Char → Prop :=
  Chain fun t cs rest => next? cs = some (t, rest)

/-- The text gets shorter by a character for each token. -/
theorem Reads.length_add_le {ts : List Token} {cs rest : List Char} (h : Reads cs ts rest) :
    rest.length + ts.length ≤ cs.length :=
  Chain.length_add_le (fun _ _ _ => length_lt_of_next?) h

/-- Reading makes no text longer. -/
theorem Reads.length_le {ts : List Token} {cs rest : List Char} (h : Reads cs ts rest) :
    rest.length ≤ cs.length := by
  have := h.length_add_le
  omega

/-- The tokens that an expression starts with. -/
def startsOperand : Token → Bool
  | .number _ | .name _ | .truth _ | .lparen | .bang | .op .sub => true
  | _ => false

/-- **No operand prolongs an operator.** Where an operand starts, no second half of an arrow or of a
`!=` stands. -/
theorem Lexeme.head?_ne {u : Token} {l cs rest : List Char} (h : Lexeme u l)
    (hu : u.startsOperand = true) (hcs : skipGaps cs = l ++ rest) {c : Char}
    (hc : c = '>' ∨ c = '=') : cs.head? ≠ some c := by
  intro hhead
  obtain ⟨k, rfl⟩ := List.head?_eq_some_iff.1 hhead
  obtain ⟨d, k', rfl⟩ := List.exists_cons_of_ne_nil h.ne_nil
  rcases hc with rfl | rfl
  · -- a text that starts with the sign has no gap before it, so the lexeme starts with it
    rw [skipGaps_cons (by decide)] at hcs
    obtain ⟨rfl, -⟩ := List.cons.inj hcs
    -- the tokens whose lexemes start with this sign are comparisons
    rcases h.eq_of_greater with rfl | rfl <;> exact absurd hu (by decide)
  · rw [skipGaps_cons (by decide)] at hcs
    obtain ⟨rfl, -⟩ := List.cons.inj hcs
    -- and here it is one token only, again a comparison
    obtain rfl := h.eq_of_equals
    exact absurd hu (by decide)

end Token

open Token (next? Reads)

namespace Expr

/-! ### Levels -/

/-- **Level.** How tightly an expression holds together, the loosest first. -/
inductive Level
  | disjunction | conjunction | negation | comparison | sum | product | unary | power | atom
  deriving DecidableEq

namespace Level

/-- The place of a level, from the loosest on. -/
def rank : Level → Nat
  | disjunction => 0 | conjunction => 1 | negation => 2 | comparison => 3 | sum => 4
  | product => 5 | unary => 6 | power => 7 | atom => 8

/-- The next tighter level; no level is tighter than an atom. -/
def next : Level → Level
  | disjunction => conjunction | conjunction => negation | negation => comparison
  | comparison => sum | sum => product | product => unary | unary => power
  | power => atom | atom => atom

/-- The levels whose operators chain to the left. -/
def isChain : Level → Bool
  | disjunction | conjunction | sum | product => true
  | _ => false

/-- The next level is tighter by one. -/
theorem rank_next {l : Level} (h : l ≠ atom) : l.next.rank = l.rank + 1 := by
  cases l <;> simp_all [next, rank]

/-- Levels are told apart by their ranks. -/
theorem rank_inj {l m : Level} (h : l.rank = m.rank) : l = m := by
  cases l <;> cases m <;> first | rfl | simp [rank] at h

end Level

end Expr

/-- The level that an operator belongs to. -/
def BinOp.level : BinOp → Expr.Level
  | .or => .disjunction
  | .and => .conjunction
  | .lt | .le | .gt | .ge | .eq | .ne => .comparison
  | .add | .sub => .sum
  | .mul | .div => .product
  | .pow => .power

/-- The operators that compare are those of their level. -/
theorem BinOp.isComparison_iff {op : BinOp} : op.isComparison = true ↔ op.level = .comparison := by
  cases op <;> simp [isComparison, level]

/-- No operator is of the level of prefix minus. -/
theorem BinOp.level_ne_unary (op : BinOp) : op.level ≠ .unary := by
  cases op <;> simp [level]

namespace Expr

/-! ### Derivations -/

/-- **Derivations.** The trees of a level that the tokens stand for. Minus a literal is a number, by
`negated`. -/
inductive Derives : Level → List Token → Expr → Prop
  | tighter {l : Level} {ts : List Token} {e : Expr} (more : l ≠ .atom)
      (inner : Derives l.next ts e) : Derives l ts e
  | chain {op : BinOp} {ts us : List Token} {a b : Expr} (chains : op.level.isChain = true)
      (left : Derives op.level ts a) (right : Derives op.level.next us b) :
      Derives op.level (ts ++ .op op :: us) (.bin op a b)
  | not {ts : List Token} {a : Expr} (operand : Derives .negation ts a) :
      Derives .negation (.bang :: ts) (.not a)
  | compare {op : BinOp} {ts us : List Token} {a b : Expr} (compares : op.isComparison = true)
      (left : Derives .sum ts a) (right : Derives .sum us b) :
      Derives .comparison (ts ++ .op op :: us) (.bin op a b)
  | minus {ts : List Token} {a : Expr} (operand : Derives .unary ts a) :
      Derives .unary (.op .sub :: ts) a.negated
  | power {ts us : List Token} {a b : Expr} (base : Derives .atom ts a)
      (exponent : Derives .unary us b) : Derives .power (ts ++ .op .pow :: us) (.bin .pow a b)
  | number (d : Numeral.Decimal) : Derives .atom [.number d] (.num d.toFloat)
  | truth (b : Bool) : Derives .atom [.truth b] (.truth b)
  | var (s : String) : Derives .atom [.name s] (.var s)
  | paren {ts : List Token} {e : Expr} (inner : Derives .disjunction ts e) :
      Derives .atom (.lparen :: (ts ++ [.rparen])) e

/-- The first token of an expression. A tight one starts neither with `!` nor with a minus. -/
theorem Derives.exists_head {l : Level} {ts : List Token} {e : Expr} (h : Derives l ts e) :
    ∃ t us, ts = t :: us ∧ t.startsOperand = true ∧
      (3 ≤ l.rank → t ≠ .bang) ∧ (7 ≤ l.rank → t ≠ .op .sub) := by
  induction h with
  | @tighter l ts e hl _ ih =>
    obtain ⟨t, us, rfl, hstart, hbang, hsub⟩ := ih
    -- the next level is tighter by one, and this one starts with whatever it starts with
    rw [Level.rank_next hl] at hbang hsub
    exact ⟨t, us, rfl, hstart, fun h => hbang (by omega), fun h => hsub (by omega)⟩
  | chain chains _ _ ih _ =>
    -- a chain starts as its left operand does, and so do comparisons and powers
    obtain ⟨t, us, rfl, h⟩ := ih
    exact ⟨t, _, rfl, h⟩
  | not => exact ⟨_, _, rfl, rfl, by simp [Level.rank], by simp⟩
  | compare compares _ _ ih _ =>
    obtain ⟨t, us, rfl, hstart, hbang, hsub⟩ := ih
    exact ⟨t, _, rfl, hstart, fun _ => hbang (by decide), by simp [Level.rank]⟩
  | minus => exact ⟨_, _, rfl, rfl, by simp, by simp [Level.rank]⟩
  | power _ _ ih _ =>
    obtain ⟨t, us, rfl, hstart, hbang, hsub⟩ := ih
    exact ⟨t, _, rfl, hstart, fun _ => hbang (by decide), fun _ => hsub (by decide)⟩
  | number => exact ⟨_, _, rfl, rfl, by simp, by simp⟩
  | truth => exact ⟨_, _, rfl, rfl, by simp, by simp⟩
  | var => exact ⟨_, _, rfl, rfl, by simp, by simp⟩
  | paren => exact ⟨_, _, rfl, rfl, by simp, by simp⟩

/-! ### What is read has a derivation -/

/-- The tokens from which a goal makes the tree `e`. The rest of a chain goes on with every
derivation of its first part. -/
def Goal.Spans : Goal → List Token → Expr → Prop
  | .disjunction, ts, e => Derives .disjunction ts e
  | .moreDisjuncts a, ts, e =>
    ∀ us, Derives .disjunction us a → Derives .disjunction (us ++ ts) e
  | .conjunction, ts, e => Derives .conjunction ts e
  | .moreConjuncts a, ts, e =>
    ∀ us, Derives .conjunction us a → Derives .conjunction (us ++ ts) e
  | .negation, ts, e => Derives .negation ts e
  | .comparison, ts, e => Derives .comparison ts e
  | .sum, ts, e => Derives .sum ts e
  | .moreTerms a, ts, e => ∀ us, Derives .sum us a → Derives .sum (us ++ ts) e
  | .product, ts, e => Derives .product ts e
  | .moreFactors a, ts, e => ∀ us, Derives .product us a → Derives .product (us ++ ts) e
  | .unary, ts, e => Derives .unary ts e
  | .power, ts, e => Derives .power ts e
  | .atom, ts, e => Derives .atom ts e

section Soundness

attribute [local simp] read?

variable {cs mid rest : List Char} {l : Level} {ts : List Token} {a b e : Expr} {op : BinOp}

/-- Nothing more of a chain is read. -/
theorem spans_nil (h : rest = cs ∧ e = a) :
    ∃ ts, Reads cs ts rest ∧ ∀ us, Derives l us a → Derives l (us ++ ts) e := by
  obtain ⟨rfl, rfl⟩ := h
  exact ⟨[], .nil _, fun us hus => by rwa [List.append_nil]⟩

/-- One more operand of a chain, and then more. -/
theorem spans_cons (op : BinOp) (chains : op.level.isChain = true) (hop : next? cs = some (.op op, mid))
    {mid' : List Char} (hb : ∃ ts, Reads mid ts mid' ∧ Derives op.level.next ts b)
    (hmore : ∃ ts, Reads mid' ts rest ∧
      ∀ us, Derives op.level us (.bin op a b) → Derives op.level (us ++ ts) e) :
    ∃ ts, Reads cs ts rest ∧ ∀ us, Derives op.level us a → Derives op.level (us ++ ts) e := by
  obtain ⟨bs, hbs, hb⟩ := hb
  obtain ⟨ts, hts, hmore⟩ := hmore
  refine ⟨.op op :: (bs ++ ts), .cons hop (hbs.append hts), fun us hus => ?_⟩
  -- the operand makes one link of the chain, with which the rest goes on
  have h := hmore _ (.chain chains hus hb)
  rwa [List.append_assoc, List.cons_append] at h

/-- The first operand of a chain, and then more. -/
theorem spans_chain (hl : l ≠ .atom) (ha : ∃ ts, Reads cs ts mid ∧ Derives l.next ts a)
    (hmore : ∃ ts, Reads mid ts rest ∧ ∀ us, Derives l us a → Derives l (us ++ ts) e) :
    ∃ ts, Reads cs ts rest ∧ Derives l ts e := by
  obtain ⟨as, has, ha⟩ := ha
  obtain ⟨ts, hts, hmore⟩ := hmore
  exact ⟨as ++ ts, has.append hts, hmore as (.tighter hl ha)⟩

/-- A tighter expression is read. -/
theorem spans_tighter (hl : l ≠ .atom) (h : ∃ ts, Reads cs ts rest ∧ Derives l.next ts e) :
    ∃ ts, Reads cs ts rest ∧ Derives l ts e := by
  obtain ⟨ts, hts, h⟩ := h
  exact ⟨ts, hts, .tighter hl h⟩

/-- **Sound** with this much fuel: what is read for any goal has a derivation from the tokens that were
read. -/
def SoundWith (n : Nat) : Prop :=
  ∀ {g : Goal} {cs rest : List Char} {e : Expr}, read? n g cs = some (e, rest) →
    ∃ ts, Reads cs ts rest ∧ g.Spans ts e

variable {n : Nat}

/-- A prefix operator is read with an operand after it, or else a tighter expression. -/
theorem sound_negation (ih : SoundWith n) (h : read? (n + 1) .negation cs = some (e, rest)) :
    ∃ ts, Reads cs ts rest ∧ Derives .negation ts e := by
  simp only [read?] at h
  split at h
  · -- after the sign the goal is read again, with the fuel that is left
    next mid hbang =>
    simp only [Option.bind_eq_bind, Option.bind_eq_some_iff] at h
    obtain ⟨⟨a, mid'⟩, ha, h⟩ := h
    obtain ⟨rfl, rfl⟩ : Expr.not a = e ∧ mid' = rest := by simpa using h
    obtain ⟨ts, hts, ha⟩ := ih ha
    exact ⟨.bang :: ts, .cons hbang hts, .not ha⟩
  · -- without the sign the reader has gone to the next level at once
    exact spans_tighter (by decide) (ih h)

/-- Minus an expression is read as its negation, in which a literal takes up the sign. -/
theorem sound_unary (ih : SoundWith n) (h : read? (n + 1) .unary cs = some (e, rest)) :
    ∃ ts, Reads cs ts rest ∧ Derives .unary ts e := by
  simp only [read?] at h
  split at h
  · next mid hminus =>
    simp only [Option.bind_eq_bind, Option.bind_eq_some_iff] at h
    obtain ⟨⟨a, mid'⟩, ha, h⟩ := h
    obtain ⟨rfl, rfl⟩ : a.negated = e ∧ mid' = rest := by simpa using h
    obtain ⟨ts, hts, ha⟩ := ih ha
    exact ⟨.op .sub :: ts, .cons hminus hts, .minus ha⟩
  · exact spans_tighter (by decide) (ih h)

/-- One comparison is read. An operator that compares nothing is left to whoever asked. -/
theorem sound_comparison (ih : SoundWith n) (h : read? (n + 1) .comparison cs = some (e, rest)) :
    ∃ ts, Reads cs ts rest ∧ Derives .comparison ts e := by
  simp only [read?, Option.bind_eq_bind, Option.bind_eq_some_iff] at h
  obtain ⟨⟨a, mid⟩, ha, h⟩ := h
  obtain ⟨ts, hts, ha⟩ := ih ha
  -- with no operator behind it, or one that does not compare, the sum is all that is read
  have hlone (h : some (a, mid) = some (e, rest)) :
      ∃ ts, Reads cs ts rest ∧ Derives .comparison ts e := by
    obtain ⟨rfl, rfl⟩ := Prod.mk.inj (Option.some.inj h)
    exact ⟨ts, hts, .tighter (by decide) ha⟩
  split at h
  · next op mid' hop =>
    split at h
    · -- the operator compares, and its right sum is read
      next compares =>
      obtain ⟨⟨b, mid''⟩, hb, h⟩ := Option.bind_eq_some_iff.1 h
      obtain ⟨rfl, rfl⟩ : Expr.bin op a b = e ∧ mid'' = rest := by simpa using h
      obtain ⟨us, hus, hb⟩ := ih hb
      exact ⟨ts ++ .op op :: us, hts.append (.cons hop hus), .compare compares ha hb⟩
    · exact hlone h
  · exact hlone h

/-- A power is read with its exponent, which is of the level of prefix minus, so powers go to the
right. -/
theorem sound_power (ih : SoundWith n) (h : read? (n + 1) .power cs = some (e, rest)) :
    ∃ ts, Reads cs ts rest ∧ Derives .power ts e := by
  simp only [read?, Option.bind_eq_bind, Option.bind_eq_some_iff] at h
  obtain ⟨⟨a, mid⟩, ha, h⟩ := h
  obtain ⟨ts, hts, ha⟩ := ih ha
  split at h
  · -- the sign of a power follows, and an exponent is read behind it
    next mid' hop =>
    obtain ⟨⟨b, mid''⟩, hb, h⟩ := Option.bind_eq_some_iff.1 h
    obtain ⟨rfl, rfl⟩ : Expr.bin .pow a b = e ∧ mid'' = rest := by simpa using h
    obtain ⟨us, hus, hb⟩ := ih hb
    exact ⟨ts ++ .op .pow :: us, hts.append (.cons hop hus), .power ha hb⟩
  · obtain ⟨rfl, rfl⟩ : a = e ∧ mid = rest := by simpa using h
    exact ⟨ts, hts, .tighter (by decide) ha⟩

/-- An atom is one token, or an expression in parentheses. -/
theorem sound_atom (ih : SoundWith n) (h : read? (n + 1) .atom cs = some (e, rest)) :
    ∃ ts, Reads cs ts rest ∧ Derives .atom ts e := by
  simp only [read?] at h
  split at h
  · next d mid hnext =>
    obtain ⟨rfl, rfl⟩ : Expr.num d.toFloat = e ∧ mid = rest := by simpa using h
    exact ⟨_, .one hnext, .number d⟩
  · next t mid hnext =>
    obtain ⟨rfl, rfl⟩ : Expr.truth t = e ∧ mid = rest := by simpa using h
    exact ⟨_, .one hnext, .truth t⟩
  · next s mid hnext =>
    obtain ⟨rfl, rfl⟩ : Expr.var s = e ∧ mid = rest := by simpa using h
    exact ⟨_, .one hnext, .var s⟩
  · next mid hopen =>
    simp only [Option.bind_eq_bind, Option.bind_eq_some_iff] at h
    obtain ⟨⟨a, mid'⟩, ha, h⟩ := h
    obtain ⟨ts, hts, ha⟩ := ih ha
    -- the parenthesis must be closed, and what stands inside is the atom
    split at h
    · next mid'' hclose =>
      obtain ⟨rfl, rfl⟩ : a = e ∧ mid'' = rest := by simpa using h
      exact ⟨_, .cons hopen (hts.append (.one hclose)), .paren ha⟩
    · simp at h
  · simp at h

/-- The rest of a chain, behind an operator that was read: an operand of the next level, and then
more. -/
theorem sound_link (ih : SoundWith n) (op : BinOp) {operand : Goal} {more : Expr → Goal}
    (chains : op.level.isChain = true)
    (hoperand : ∀ ts b, operand.Spans ts b → Derives op.level.next ts b)
    (hmore : ∀ ts a e, (more a).Spans ts e → ∀ us, Derives op.level us a →
      Derives op.level (us ++ ts) e)
    (hop : next? cs = some (.op op, mid))
    (h : ((read? n operand mid).bind fun p => read? n (more (.bin op a p.1)) p.2) = some (e, rest)) :
    ∃ ts, Reads cs ts rest ∧ ∀ us, Derives op.level us a → Derives op.level (us ++ ts) e := by
  obtain ⟨⟨b, mid'⟩, hb, h⟩ := Option.bind_eq_some_iff.1 h
  obtain ⟨bs, hbs, hb⟩ := ih hb
  obtain ⟨ts, hts, hrest⟩ := ih h
  exact spans_cons op chains hop ⟨bs, hbs, hoperand bs b hb⟩ ⟨ts, hts, hmore ts _ e hrest⟩

/-- **Soundness.** What is read for a goal has a derivation from the tokens that were read. -/
theorem read?_sound : SoundWith n := by
  induction n with
  | zero =>
    intro g cs rest e h
    simp [read?] at h
  | succ n ih =>
    intro g cs rest e h
    -- what a goal asks for next is read with less fuel
    cases g with
    | disjunction | conjunction | sum | product =>
      -- the first operand, and then the rest of the chain
      simp only [read?, Option.bind_eq_bind, Option.bind_eq_some_iff] at h
      obtain ⟨⟨a, mid⟩, ha, h⟩ := h
      exact spans_chain (by decide) (ih ha) (ih h)
    | moreDisjuncts a =>
      -- here and below: one operator and operand more, or the end of the chain
      simp only [read?] at h
      split at h
      · next mid hop => exact sound_link ih .or rfl (fun _ _ => id) (fun _ _ _ => id) hop h
      · exact spans_nil (by simpa [eq_comm, and_comm] using h)
    | moreConjuncts a =>
      simp only [read?] at h
      split at h
      · next mid hop => exact sound_link ih .and rfl (fun _ _ => id) (fun _ _ _ => id) hop h
      · exact spans_nil (by simpa [eq_comm, and_comm] using h)
    | moreTerms a =>
      simp only [read?] at h
      split at h
      · next mid hop => exact sound_link ih .add rfl (fun _ _ => id) (fun _ _ _ => id) hop h
      · next mid hop => exact sound_link ih .sub rfl (fun _ _ => id) (fun _ _ _ => id) hop h
      · exact spans_nil (by simpa [eq_comm, and_comm] using h)
    | moreFactors a =>
      simp only [read?] at h
      split at h
      · next mid hop => exact sound_link ih .mul rfl (fun _ _ => id) (fun _ _ _ => id) hop h
      · next mid hop => exact sound_link ih .div rfl (fun _ _ => id) (fun _ _ _ => id) hop h
      · exact spans_nil (by simpa [eq_comm, and_comm] using h)
    | negation => exact sound_negation ih h
    | comparison => exact sound_comparison ih h
    | unary => exact sound_unary ih h
    | power => exact sound_power ih h
    | atom => exact sound_atom ih h

end Soundness

/-! ### What has a derivation is read -/

/-- The goal of reading a level. -/
def Level.goal : Level → Goal
  | disjunction => .disjunction | conjunction => .conjunction | negation => .negation
  | comparison => .comparison | sum => .sum | product => .product | unary => .unary
  | power => .power | atom => .atom

/-- The goal of reading the rest of a chain. -/
def Level.more (a : Expr) : Level → Goal
  | disjunction => .moreDisjuncts a | conjunction => .moreConjuncts a
  | sum => .moreTerms a | product => .moreFactors a
  | negation | comparison | unary | power | atom => .atom

/-- A bound on the steps that a goal takes before a token is read. -/
def Goal.height : Goal → Nat
  | .disjunction => 9 | .conjunction => 8 | .negation => 7 | .comparison => 6 | .sum => 5
  | .product => 4 | .unary => 3 | .power => 2 | .atom => 1
  | .moreDisjuncts _ | .moreConjuncts _ | .moreTerms _ | .moreFactors _ => 1

/-- With fuel enough, the goal is read as `e`. -/
def Parses (g : Goal) (cs : List Char) (e : Expr) (rest : List Char) : Prop :=
  ∀ n, 10 * cs.length + g.height ≤ n → read? n g cs = some (e, rest)

/-- No operator of the level `l` or of a tighter one follows. -/
def StopsAt (l : Level) (cs : List Char) : Prop :=
  ∀ op rest, next? cs = some (.op op, rest) → op.level.rank < l.rank

/-- The reader of the level `l` that holds `a` goes on to `e`. Only a chain can go on. -/
def Continues (l : Level) (a : Expr) (cs : List Char) (e : Expr) (rest : List Char) : Prop :=
  if l.isChain then Parses (l.more a) cs e rest else StopsAt l cs ∧ e = a ∧ rest = cs

section Completeness

variable {cs mid mid' rest : List Char} {l : Level} {ts us : List Token} {a b e : Expr} {op : BinOp}

/-- What stops a level stops every tighter one. -/
theorem StopsAt.mono {m : Level} (h : StopsAt l cs) (hlm : l.rank ≤ m.rank) : StopsAt m cs :=
  fun op rest hop => Nat.lt_of_lt_of_le (h op rest hop) hlm

/-- No goal is read without fuel. -/
theorem Parses.of_succ {g : Goal} (h : ∀ n, 10 * cs.length + g.height ≤ n + 1 →
    read? (n + 1) g cs = some (e, rest)) : Parses g cs e rest := by
  intro n hn
  -- every goal has some height, so the fuel is not used up
  have hpos : 0 < g.height := by cases g <;> simp [Goal.height]
  obtain ⟨m, rfl⟩ : ∃ m, n = m + 1 := ⟨n - 1, by omega⟩
  exact h m hn

/-- A chain: an operand of the next level, and then more. -/
theorem Parses.chain (hl : l.isChain = true) (ha : Parses l.next.goal cs a mid)
    (hlen : mid.length < cs.length) (hmore : Parses (l.more a) mid e rest) :
    Parses l.goal cs e rest := by
  refine .of_succ fun n hn => ?_
  cases l with
  | negation | comparison | unary | power | atom => simp [Level.isChain] at hl
  | disjunction | conjunction | sum | product =>
    -- the goals before the first token need the fuel of their heights only
    simp only [Level.goal, Level.next, Level.more, Goal.height, Parses] at ha hn hmore ⊢
    have hfirst := ha n (by omega)
    have hrest := hmore n (by omega)
    simp [read?, hfirst, hrest]

/-- One more operand of a chain. -/
theorem Parses.more (chains : op.level.isChain = true) (hop : next? cs = some (.op op, mid))
    (hb : Parses op.level.next.goal mid b mid') (hlen : mid'.length ≤ mid.length)
    (hmore : Parses (op.level.more (.bin op a b)) mid' e rest) :
    Parses (op.level.more a) cs e rest := by
  have hlt := Token.length_lt_of_next? hop
  refine .of_succ fun n hn => ?_
  -- the fuel of a step is enough for what is left, because the operator has been taken
  cases op with
  | lt | le | gt | ge | eq | ne | pow => simp [BinOp.level, Level.isChain] at chains
  | or | and | add | sub | mul | div =>
    simp only [BinOp.level, Level.goal, Level.next, Level.more, Goal.height, Parses] at hb hn hmore ⊢
    have hsecond := hb n (by omega)
    have hrest := hmore n (by omega)
    simp [read?, hop, hsecond, hrest]

/-- The end of a chain. -/
theorem Parses.done (hl : l.isChain = true) (hstop : StopsAt l cs) : Parses (l.more a) cs a cs := by
  refine .of_succ fun n _ => ?_
  cases l with
  | negation | comparison | unary | power | atom => simp [Level.isChain] at hl
  -- no operator of the level follows, so the reader has gone no further
  | disjunction | conjunction =>
    simp only [Level.more, read?]
    split
    · next hop => exact absurd (hstop _ _ hop) (by decide)
    · rfl
  | sum | product =>
    simp only [Level.more, read?]
    split
    · next hop => exact absurd (hstop _ _ hop) (by decide)
    · next hop => exact absurd (hstop _ _ hop) (by decide)
    · rfl

/-- A negation: the sign, and its operand. -/
theorem Parses.not (hbang : next? cs = some (.bang, mid)) (ha : Parses .negation mid a rest) :
    Parses .negation cs (.not a) rest := by
  have hlt := Token.length_lt_of_next? hbang
  refine .of_succ fun n hn => ?_
  simp only [Goal.height] at hn
  have hinner := ha n (by simp only [Goal.height]; omega)
  simp [read?, hbang, hinner]

/-- Without the sign a negation is what the next level reads. -/
theorem Parses.negation (hbang : ∀ mid, next? cs ≠ some (.bang, mid))
    (h : Parses .comparison cs e rest) : Parses .negation cs e rest := by
  refine .of_succ fun n hn => ?_
  simp only [Goal.height] at hn
  have hinner := h n (by simp only [Goal.height]; omega)
  simp only [read?, hinner]

/-- A comparison: a sum, an operator that compares, and a sum. -/
theorem Parses.compare (ha : Parses .sum cs a mid) (hlen : mid.length < cs.length)
    (compares : op.isComparison = true) (hop : next? mid = some (.op op, mid'))
    (hb : Parses .sum mid' b rest) : Parses .comparison cs (.bin op a b) rest := by
  have hlt := Token.length_lt_of_next? hop
  refine .of_succ fun n hn => ?_
  simp only [Goal.height] at hn
  have hleft := ha n (by simp only [Goal.height]; omega)
  have hright := hb n (by simp only [Goal.height]; omega)
  simp [read?, hleft, hop, compares, hright]

/-- A sum alone is a comparison, where no operator of that level follows. -/
theorem Parses.comparison (ha : Parses .sum cs a rest) (hstop : StopsAt .comparison rest) :
    Parses .comparison cs a rest := by
  refine .of_succ fun n hn => ?_
  simp only [Goal.height] at hn
  have hleft := ha n (by simp only [Goal.height]; omega)
  simp only [read?, hleft, Option.bind_eq_bind, Option.bind_some]
  split
  · -- an operator that compares would be of the level, which was ruled out
    next op mid hop =>
    have hlt := hstop op mid hop
    split
    · next compares =>
      rw [BinOp.isComparison_iff.1 compares] at hlt
      exact absurd hlt (by decide)
    · rfl
  · rfl

/-- Minus: the sign, and its operand, which a literal takes up. -/
theorem Parses.minus (hminus : next? cs = some (.op .sub, mid)) (ha : Parses .unary mid a rest) :
    Parses .unary cs a.negated rest := by
  have hlt := Token.length_lt_of_next? hminus
  refine .of_succ fun n hn => ?_
  simp only [Goal.height] at hn
  have hinner := ha n (by simp only [Goal.height]; omega)
  simp [read?, hminus, hinner]

/-- Without the sign this level is what the next one reads. -/
theorem Parses.unary (hminus : ∀ mid, next? cs ≠ some (.op .sub, mid))
    (h : Parses .power cs e rest) : Parses .unary cs e rest := by
  refine .of_succ fun n hn => ?_
  simp only [Goal.height] at hn
  have hinner := h n (by simp only [Goal.height]; omega)
  simp only [read?, hinner]

/-- A power: its base, the sign, and its exponent. -/
theorem Parses.power (ha : Parses .atom cs a mid) (hlen : mid.length < cs.length)
    (hop : next? mid = some (.op .pow, mid')) (hb : Parses .unary mid' b rest) :
    Parses .power cs (.bin .pow a b) rest := by
  have hlt := Token.length_lt_of_next? hop
  refine .of_succ fun n hn => ?_
  simp only [Goal.height] at hn
  have hleft := ha n (by simp only [Goal.height]; omega)
  have hright := hb n (by simp only [Goal.height]; omega)
  simp [read?, hleft, hop, hright]

/-- An atom alone is a power, where the sign of a power does not follow. -/
theorem Parses.base (ha : Parses .atom cs a rest) (hstop : StopsAt .power rest) :
    Parses .power cs a rest := by
  refine .of_succ fun n hn => ?_
  simp only [Goal.height] at hn
  have hleft := ha n (by simp only [Goal.height]; omega)
  simp only [read?, hleft, Option.bind_eq_bind, Option.bind_some]
  split
  · next mid hop => exact absurd (hstop _ mid hop) (by decide)
  · rfl

/-- An expression in parentheses. -/
theorem Parses.paren (hopen : next? cs = some (.lparen, mid)) (h : Parses .disjunction mid e mid')
    (hclose : next? mid' = some (.rparen, rest)) : Parses .atom cs e rest := by
  have hlt := Token.length_lt_of_next? hopen
  refine .of_succ fun n hn => ?_
  simp only [Goal.height] at hn
  have hinner := h n (by simp only [Goal.height]; omega)
  simp [read?, hopen, hinner, hclose]

/-- Where no operator of the level follows, its reader stops. -/
theorem continues_of_stopsAt (hstop : StopsAt l cs) : Continues l a cs a cs := by
  unfold Continues
  split
  · next hl => exact .done hl hstop
  · exact ⟨hstop, rfl, rfl⟩

/-- Only a chain goes on. -/
theorem Continues.eq (h : Continues l a cs e rest) (hl : l.isChain = false) :
    StopsAt l cs ∧ e = a ∧ rest = cs := by
  rw [Continues, hl] at h
  exact h

/-- At a level with chains the reader goes on with the rest of one. -/
theorem Continues.parses (h : Continues l a cs e rest) (hl : l.isChain = true) :
    Parses (l.more a) cs e rest := by
  rw [Continues, hl] at h
  exact h

/-- **Readable.** Wherever these tokens stand with nothing tighter behind them, the reader of the level
reads `a` from them and goes on to whatever it goes on to from there. -/
def Readable (l : Level) (ts : List Token) (a : Expr) : Prop :=
  ∀ {cs mid rest : List Char} {e : Expr}, Reads cs ts mid →
    (∀ op r, next? mid = some (.op op, r) → op.level.rank ≤ l.rank) →
    Continues l a mid e rest → Parses l.goal cs e rest

/-- Readable tokens are read on their own where no operator of the level follows. -/
theorem Readable.parses (h : Readable l ts a) (hreads : Reads cs ts mid) (hstop : StopsAt l mid) :
    Parses l.goal cs a mid :=
  h hreads (fun op r hop => Nat.le_of_lt (hstop op r hop)) (continues_of_stopsAt hstop)

/-- An expression takes up a character at least. -/
theorem Derives.length_lt (h : Derives l ts a) (hreads : Reads cs ts mid) :
    mid.length < cs.length := by
  obtain ⟨t, us, rfl, -⟩ := h.exists_head
  have hle := Token.Reads.length_add_le hreads
  rw [List.length_cons] at hle
  omega

/-- What is read of the next level is of this one, where a chain goes on and every other level sees
that none of its own signs stands there. -/
theorem readable_tighter (hl : l ≠ .atom) (inner : Derives l.next ts a)
    (ih : Readable l.next ts a) : Readable l ts a := by
  intro cs mid rest e hreads hstop hcont
  have hnext := Level.rank_next hl
  -- no operator of the tighter level follows, since it would have been of this level or above
  have hstop' : StopsAt l.next mid := by
    intro op r hop
    have hle := hstop op r hop
    omega
  have hinner : Parses l.next.goal cs a mid := ih.parses hreads hstop'
  have hlen := inner.length_lt hreads
  obtain ⟨t, us, rfl, -, hbang, hsub⟩ := inner.exists_head
  obtain ⟨m, ht, -⟩ := hreads.exists_of_cons
  -- the first token of the text is the first of the derivation, which is known
  have hfirst : ∀ {t' m'}, next? cs = some (t', m') → t = t' := by
    intro t' m' ht'
    rw [ht] at ht'
    exact (Prod.mk.inj (Option.some.inj ht')).1
  cases l with
  | disjunction | conjunction | sum | product => exact .chain rfl hinner hlen (hcont.parses rfl)
  | negation =>
    obtain ⟨-, rfl, rfl⟩ := hcont.eq rfl
    -- the tighter derivation does not start with `!`, so the reader passes on to it
    exact .negation (fun m' hm' => hbang (by decide) (hfirst hm')) hinner
  | comparison =>
    obtain ⟨hstops, rfl, rfl⟩ := hcont.eq rfl
    exact .comparison hinner hstops
  | unary =>
    obtain ⟨-, rfl, rfl⟩ := hcont.eq rfl
    -- nor does it start with a minus
    exact .unary (fun m' hm' => hsub (by decide) (hfirst hm')) hinner
  | power =>
    obtain ⟨hstops, rfl, rfl⟩ := hcont.eq rfl
    exact .base hinner hstops
  | atom => exact absurd rfl hl

/-- The right operand of a chain is read on its own. With it the reader goes on from the left one to
`e`, which is what the left operand asks for. -/
theorem readable_chain (chains : op.level.isChain = true) (iha : Readable op.level ts a)
    (ihb : Readable op.level.next us b) : Readable op.level (ts ++ .op op :: us) (.bin op a b) := by
  intro cs mid rest e hreads hstop hcont
  -- the right operand is followed by what follows the whole
  obtain ⟨m, hts, hus⟩ := hreads.exists_of_append
  obtain ⟨m', hop, hus⟩ := hus.exists_of_cons
  have hl : op.level ≠ .atom := by
    intro h
    rw [h] at chains
    exact absurd chains (by decide)
  -- what follows is of this level at most, so it stops the next one
  have hstop' : StopsAt op.level.next mid := by
    intro op' r hop'
    have hle := hstop op' r hop'
    rw [Level.rank_next hl]
    omega
  have hright : Parses op.level.next.goal m' b mid := ihb.parses hus hstop'
  have hmore : Parses (op.level.more a) m e rest :=
    .more chains hop hright (Token.Reads.length_le hus) (hcont.parses chains)
  -- holding the left operand the reader goes on over the operator and the right one
  have hcontinues : Continues op.level a m e rest := by
    rw [Continues, chains]
    exact hmore
  refine iha hts (fun op' r hop' => ?_) hcontinues
  -- behind the left operand stands an operator of the level, which is not tighter
  rw [hop] at hop'
  obtain ⟨⟨rfl⟩, rfl⟩ := Prod.mk.inj (Option.some.inj hop')
  exact Nat.le_refl _

/-- Behind its sign a negation is read, and no chain goes on from it. -/
theorem readable_not (ih : Readable .negation ts a) : Readable .negation (.bang :: ts) (.not a) := by
  intro cs mid rest e hreads _ hcont
  obtain ⟨m, hbang, hts⟩ := hreads.exists_of_cons
  obtain ⟨hstops, rfl, rfl⟩ := hcont.eq rfl
  exact .not hbang (ih.parses hts hstops)

/-- Behind its sign minus is read, and no chain goes on from it. -/
theorem readable_minus (ih : Readable .unary ts a) : Readable .unary (.op .sub :: ts) a.negated := by
  intro cs mid rest e hreads _ hcont
  obtain ⟨m, hminus, hts⟩ := hreads.exists_of_cons
  obtain ⟨hstops, rfl, rfl⟩ := hcont.eq rfl
  exact .minus hminus (ih.parses hts hstops)

/-- The operator ends the left sum of a comparison, and what follows the right one ends that. -/
theorem readable_compare (compares : op.isComparison = true) (left : Derives .sum ts a)
    (iha : Readable .sum ts a) (ihb : Readable .sum us b) :
    Readable .comparison (ts ++ .op op :: us) (.bin op a b) := by
  intro cs mid rest e hreads _ hcont
  obtain ⟨m, hts, hus⟩ := hreads.exists_of_append
  obtain ⟨m', hop, hus⟩ := hus.exists_of_cons
  obtain ⟨hstops, rfl, rfl⟩ := hcont.eq rfl
  -- the operator between the sums is looser than they are
  have hstopm : StopsAt .sum m := by
    intro op' r hop'
    rw [hop] at hop'
    obtain ⟨⟨rfl⟩, rfl⟩ := Prod.mk.inj (Option.some.inj hop')
    rw [BinOp.isComparison_iff.1 compares]
    decide
  have hleft : Parses .sum cs a m := iha.parses hts hstopm
  have hright : Parses .sum m' b rest := ihb.parses hus (hstops.mono (by decide))
  exact .compare hleft (left.length_lt hts) compares hop hright

/-- Every operator ends the base of a power. Its exponent is of the level of prefix minus, which has no
operator of its own. -/
theorem readable_power (base : Derives .atom ts a) (iha : Readable .atom ts a)
    (ihb : Readable .unary us b) : Readable .power (ts ++ .op .pow :: us) (.bin .pow a b) := by
  intro cs mid rest e hreads _ hcont
  obtain ⟨m, hts, hus⟩ := hreads.exists_of_append
  obtain ⟨m', hop, hus⟩ := hus.exists_of_cons
  obtain ⟨hstops, rfl, rfl⟩ := hcont.eq rfl
  -- every operator is looser than an atom
  have hstopm : StopsAt .atom m := by
    intro op' r _
    cases op' <;> decide
  -- what stops a power is looser than prefix minus, as no operator lies between
  have hstopr : StopsAt .unary rest := by
    intro op' r hop'
    have hlt : op'.level.rank < 7 := hstops op' r hop'
    have hne : op'.level.rank ≠ 6 := fun h => op'.level_ne_unary (Level.rank_inj h)
    change op'.level.rank < 6
    omega
  have hbase : Parses .atom cs a m := iha.parses hts hstopm
  have hexponent : Parses .unary m' b rest := ihb.parses hus hstopr
  exact .power hbase (base.length_lt hts) hop hexponent

/-- One token that is an atom by itself. -/
theorem readable_single {t : Token} (hread : ∀ {n cs rest}, next? cs = some (t, rest) →
    read? (n + 1) .atom cs = some (a, rest)) : Readable .atom [t] a := by
  intro cs mid rest e hreads _ hcont
  obtain ⟨m, hnext, hnil⟩ := hreads.exists_of_cons
  obtain ⟨-, rfl, rfl⟩ := hcont.eq rfl
  cases hnil
  exact .of_succ fun n _ => hread hnext

/-- The closing parenthesis ends whatever stands inside. -/
theorem readable_paren (ih : Readable .disjunction ts a) :
    Readable .atom (.lparen :: (ts ++ [.rparen])) a := by
  intro cs mid rest e hreads _ hcont
  obtain ⟨m, hopen, hreads⟩ := hreads.exists_of_cons
  obtain ⟨m', hts, hclose⟩ := hreads.exists_of_append
  obtain ⟨m'', hclose, hnil⟩ := hclose.exists_of_cons
  obtain ⟨-, rfl, rfl⟩ := hcont.eq rfl
  cases hnil
  -- the parenthesis that closes is no operator
  have hstops : StopsAt .disjunction m' := by
    intro op r hop
    rw [hclose] at hop
    simp at hop
  exact .paren hopen (ih.parses hts hstops) hclose

/-- **Completeness**, with the rest of a chain still to come. -/
theorem Derives.readable (h : Derives l ts a) : Readable l ts a := by
  induction h with
  -- each form of the grammar hands on what is known of its parts
  | tighter hl inner ih => exact readable_tighter hl inner ih
  | chain chains _ _ iha ihb => exact readable_chain chains iha ihb
  | not _ ih => exact readable_not ih
  | compare compares left _ iha ihb => exact readable_compare compares left iha ihb
  | minus _ ih => exact readable_minus ih
  | power base _ iha ihb => exact readable_power base iha ihb
  | number d => exact readable_single fun hnext => by simp [read?, hnext]
  | truth b => exact readable_single fun hnext => by simp [read?, hnext]
  | var s => exact readable_single fun hnext => by simp [read?, hnext]
  | paren _ ih => exact readable_paren ih

end Completeness

/-- What `take?` reads has a derivation. -/
theorem take?_sound {cs rest : List Char} {e : Expr} (h : take? cs = some (e, rest)) :
    ∃ ts, Reads cs ts rest ∧ Derives .disjunction ts e := read?_sound h

/-- Tokens with a derivation are read by `take?`, if no operator follows them. -/
theorem take?_complete {cs rest : List Char} {ts : List Token} {e : Expr}
    (h : Derives .disjunction ts e) (hreads : Reads cs ts rest)
    (hstop : ∀ op r, next? rest ≠ some (.op op, r)) : take? cs = some (e, rest) := by
  have hstops : StopsAt .disjunction rest := fun op r hop => absurd hop (hstop op r)
  have hparses : Parses .disjunction cs e rest :=
    Readable.parses h.readable hreads hstops
  -- the length of the text is fuel enough for every goal
  exact hparses _ (by simp only [Goal.height]; omega)

end Expr

end Arbor
