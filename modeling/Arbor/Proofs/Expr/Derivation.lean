import Arbor.Proofs.Expr.Grammar

/-!
# Derivations of expressions

A derivation is a tree in which every node is a production of the grammar:

    disjunction  conjunction | disjunction "||" conjunction
    conjunction  negation | conjunction "&&" negation
    negation     comparison | "!" negation
    comparison   sum | sum ("<" | "<=" | ">" | ">=" | "==" | "!=") sum
    sum          product | sum ("+" | "-") product
    product      unary | product ("*" | "/") unary
    unary        power | "-" unary
    power        atom | atom "^" unary
    atom         number | "true" | "false" | name | "(" disjunction ")"

It has tokens (`Derivation.tokens`) and stands for an expression (`Derivation.tree`), and the tokens
that derive an expression are those of its derivations (`derives_iff_derivation`).

The grammar is unambiguous: derivations of one level with the same tokens are the same
(`Derivation.tokens_inj`), so tokens have one tree at most (`Derives.unique`). The proof compares two
derivations whose tokens start a common row, each with a rest of its own that cannot prolong it. At the
levels without chains the derivations are then the same, and so are the rests. At a level whose
operators go to the left one derivation may be only the first part of the other's chain, so there the
comparison says that one of the two goes on from the other by some links (`Derivation.Comparable`).
Links are what a rest would have to start with. The comparison is proved production by production, each
from the comparisons of its parts (`Derivation.settled`).
-/

namespace Arbor.Expr

/-! ### Derivation trees -/

/-- **Derivation.** A tree of productions, by the level of its root. -/
inductive Derivation : Level → Type
  | tighter {l : Level} (more : l ≠ .atom) (inner : Derivation l.next) : Derivation l
  | chain {l : Level} (op : BinOp) (own : op.level = l) (chains : l.isChain = true)
      (left : Derivation l) (right : Derivation l.next) : Derivation l
  | not (operand : Derivation .negation) : Derivation .negation
  | compare (op : BinOp) (compares : op.isComparison = true) (left right : Derivation .sum) :
      Derivation .comparison
  | minus (operand : Derivation .unary) : Derivation .unary
  | power (base : Derivation .atom) (exponent : Derivation .unary) : Derivation .power
  | number (d : Numeral.Decimal) : Derivation .atom
  | truth (b : Bool) : Derivation .atom
  | var (s : String) : Derivation .atom
  | paren (inner : Derivation .disjunction) : Derivation .atom

namespace Derivation

/-- The tokens of a derivation. -/
def tokens {l : Level} : Derivation l → List Token
  | tighter _ inner => inner.tokens
  | chain op _ _ left right => left.tokens ++ .op op :: right.tokens
  | not operand => .bang :: operand.tokens
  | compare op _ left right => left.tokens ++ .op op :: right.tokens
  | minus operand => .op .sub :: operand.tokens
  | power base exponent => base.tokens ++ .op .pow :: exponent.tokens
  | number d => [.number d]
  | truth b => [.truth b]
  | var s => [.name s]
  | paren inner => .lparen :: (inner.tokens ++ [.rparen])

/-- The expression that a derivation stands for. Levels and parentheses leave no trace in it, and
minus a literal is a number. -/
def tree {l : Level} : Derivation l → Expr
  | tighter _ inner => inner.tree
  | chain op _ _ left right => .bin op left.tree right.tree
  | not operand => .not operand.tree
  | compare op _ left right => .bin op left.tree right.tree
  | minus operand => operand.tree.negated
  | power base exponent => .bin .pow base.tree exponent.tree
  | number d => .num d.toFloat
  | truth b => .truth b
  | var s => .var s
  | paren inner => inner.tree

/-- The tokens of a derivation derive its expression. -/
theorem derives {l : Level} (D : Derivation l) : Derives l D.tokens D.tree := by
  induction D with
  -- each production of the tree is the form of the grammar with the same name
  | tighter more _ ih => exact .tighter more ih
  | chain op own chains _ _ ihl ihr =>
    subst own
    exact .chain chains ihl ihr
  | not _ ih => exact .not ih
  | compare op compares _ _ ihl ihr => exact .compare compares ihl ihr
  | minus _ ih => exact .minus ih
  | power _ _ ihb ihe => exact .power ihb ihe
  | number d => exact .number d
  | truth b => exact .truth b
  | var s => exact .var s
  | paren _ ih => exact .paren ih

end Derivation

/-- **Derivable tokens** are those of a derivation. -/
theorem derives_iff_derivation {l : Level} {ts : List Token} {e : Expr} :
    Derives l ts e ↔ ∃ D : Derivation l, D.tokens = ts ∧ D.tree = e := by
  constructor
  · -- a derivation of the parts gives one of the whole, with the tokens in the same order
    intro h
    induction h with
    | tighter more _ ih =>
      obtain ⟨D, rfl, rfl⟩ := ih
      exact ⟨.tighter more D, rfl, rfl⟩
    | @chain op ts us a b chains _ _ ihl ihr =>
      obtain ⟨L, rfl, rfl⟩ := ihl
      obtain ⟨R, rfl, rfl⟩ := ihr
      exact ⟨.chain op rfl chains L R, rfl, rfl⟩
    | not _ ih =>
      obtain ⟨D, rfl, rfl⟩ := ih
      exact ⟨.not D, rfl, rfl⟩
    | @compare op ts us a b compares _ _ ihl ihr =>
      obtain ⟨L, rfl, rfl⟩ := ihl
      obtain ⟨R, rfl, rfl⟩ := ihr
      exact ⟨.compare op compares L R, rfl, rfl⟩
    | minus _ ih =>
      obtain ⟨D, rfl, rfl⟩ := ih
      exact ⟨.minus D, rfl, rfl⟩
    | power _ _ ihb ihe =>
      obtain ⟨B, rfl, rfl⟩ := ihb
      obtain ⟨E, rfl, rfl⟩ := ihe
      exact ⟨.power B E, rfl, rfl⟩
    | number d => exact ⟨.number d, rfl, rfl⟩
    | truth b => exact ⟨.truth b, rfl, rfl⟩
    | var s => exact ⟨.var s, rfl, rfl⟩
    | paren _ ih =>
      obtain ⟨D, rfl, rfl⟩ := ih
      exact ⟨.paren D, rfl, rfl⟩
  · rintro ⟨D, rfl, rfl⟩
    exact D.derives

/-! ### Links of a chain -/

/-- **Link.** An operator of a level with chains, and the operand on its right. -/
structure Link (l : Level) where
  op : BinOp
  own : op.level = l
  chains : l.isChain = true
  right : Derivation l.next

/-- The tokens of some links. -/
def linkTokens {l : Level} : List (Link l) → List Token
  | [] => []
  | k :: ks => .op k.op :: (k.right.tokens ++ linkTokens ks)

namespace Derivation

variable {l : Level} {r r' : List Token}

/-- A derivation that goes on by some links. -/
def extend (D : Derivation l) : List (Link l) → Derivation l
  | [] => D
  | k :: ks => (chain k.op k.own k.chains D k.right).extend ks

/-- One link more is put on at the end of the chain. -/
theorem extend_concat (D : Derivation l) (ks : List (Link l)) (k : Link l) :
    D.extend (ks ++ [k]) = chain k.op k.own k.chains (D.extend ks) k.right := by
  induction ks generalizing D with
  | nil => rfl
  | cons j ks ih => exact ih _

/-- The tokens of one link more come last, before the rest. -/
theorem linkTokens_concat (ks : List (Link l)) (k : Link l) (r : List Token) :
    linkTokens (ks ++ [k]) ++ r = linkTokens ks ++ .op k.op :: (k.right.tokens ++ r) := by
  induction ks with
  | nil => simp [linkTokens]
  | cons j ks ih => simp [linkTokens, ih]

/-- The tokens of a chain are those of its first operand and of its links. -/
theorem tokens_extend (D : Derivation l) (ks : List (Link l)) :
    (D.extend ks).tokens = D.tokens ++ linkTokens ks := by
  induction ks generalizing D with
  | nil => simp [extend, linkTokens]
  | cons k ks ih => simp [extend, linkTokens, ih, tokens]

/-- A chain is its first operand with links. -/
theorem exists_first (hl : l.isChain = true) (D : Derivation l) :
    ∃ (more : l ≠ .atom) (first : Derivation l.next) (ks : List (Link l)),
      D = (tighter more first).extend ks := by
  induction D with
  | tighter more inner => exact ⟨more, inner, [], rfl⟩
  | chain op own chains left right ih _ =>
    -- the left operand is a first one with links, and this link is one more
    obtain ⟨more, first, ks, rfl⟩ := ih hl
    exact ⟨more, first, ks ++ [⟨op, own, chains, right⟩],
      (extend_concat (tighter more first) ks ⟨op, own, chains, right⟩).symm⟩
  | not | compare | minus | power | number | truth | var | paren => simp [Level.isChain] at hl

/-! ### Rests -/

/-- What may follow a derivation of a level without being part of it: no operator of that level or of
a tighter one. -/
def Closes (l : Level) (r : List Token) : Prop := ∀ op, r.head? = some (.op op) → op.level.rank < l.rank

/-- What may follow a derivation of a level that may be the first part of a chain. -/
def Follows (l : Level) (r : List Token) : Prop :=
  ∀ op, r.head? = some (.op op) → op.level.rank < l.rank ∨ op.level = l ∧ l.isChain = true

/-- What closes a level may follow a derivation of it. -/
theorem Closes.follows (h : Closes l r) : Follows l r := fun op hop => .inl (h op hop)

/-- At a level without chains what may follow closes it. -/
theorem Follows.closes (h : Follows l r) (hl : l.isChain = false) : Closes l r := by
  intro op hop
  rcases h op hop with hlt | ⟨-, hchain⟩
  · exact hlt
  · rw [hl] at hchain
    exact absurd hchain Bool.false_ne_true

/-- An operator of the level ends the operand before it. -/
theorem Follows.closes_next (h : Follows l r) (hl : l ≠ .atom) : Closes l.next r := by
  intro op hop
  rw [Level.rank_next hl]
  rcases h op hop with hlt | ⟨rfl, -⟩
  · -- it is looser than the level
    omega
  · -- or it is of the level itself, which is looser than the next one
    omega

/-- A token closes a level unless it is an operator of it or of a tighter one. -/
theorem closes_cons {t : Token} (h : ∀ op, t = .op op → op.level.rank < l.rank) :
    Closes l (t :: r) := by
  intro op hop
  exact h op (Option.some.inj hop)

/-- A looser operator closes the level. -/
theorem closes_op (op : BinOp) (h : op.level.rank < l.rank) : Closes l (.op op :: r) := by
  refine closes_cons fun op' heq => ?_
  obtain rfl := Token.op.inj heq
  exact h

/-- The operator of a chain may follow what may be its left operand. -/
theorem follows_op {op : BinOp} (own : op.level = l) (chains : l.isChain = true) :
    Follows l (.op op :: r) := by
  intro op' hop
  obtain rfl : op = op' := Token.op.inj (Option.some.inj hop)
  exact .inr ⟨own, chains⟩

/-- An operator of a level without chains does not follow it. -/
theorem Follows.level_ne {op : BinOp} (h : Follows l (.op op :: r)) (hl : l.isChain = false) :
    op.level ≠ l := by
  rintro rfl
  exact absurd (h.closes hl op rfl) (Nat.lt_irrefl _)

/-- Prefix minus has no operator of its own, so what closes a power closes its exponent. -/
theorem Closes.unary_of_power (h : Closes .power r) : Closes .unary r := by
  intro op hop
  have hlt : op.level.rank < 7 := h op hop
  -- no operator has the rank of prefix minus, which lies between the two levels
  have hne : op.level.rank ≠ 6 := fun h => op.level_ne_unary (Level.rank_inj h)
  change op.level.rank < 6
  omega

/-- Where links may go on, the operand before them ends. -/
theorem follows_links (ks : List (Link l)) (h : Follows l r) : Follows l (linkTokens ks ++ r) := by
  cases ks with
  | nil => exact h
  | cons k ks => exact follows_op k.own k.chains

/-- What closes a level starts with no link of it. -/
theorem Closes.links_eq_nil {ks : List (Link l)} (h : Closes l (linkTokens ks ++ r)) : ks = [] := by
  cases ks with
  | nil => rfl
  | cons k ks =>
    have hlt := h k.op rfl
    -- the first link would start with an operator of the level
    rw [k.own] at hlt
    exact absurd hlt (Nat.lt_irrefl _)

/-! ### The comparison -/

/-- **Comparison.** One of two derivations goes on from the other by the links that the other's rest
starts with. -/
def Comparable (D D' : Derivation l) (r r' : List Token) : Prop :=
  (∃ ks, D' = D.extend ks ∧ r = linkTokens ks ++ r') ∨
    ∃ ks, D = D'.extend ks ∧ r' = linkTokens ks ++ r

/-- A derivation goes on from itself by no links. -/
theorem comparable_self (D : Derivation l) (r : List Token) : Comparable D D r r :=
  .inl ⟨[], rfl, rfl⟩

/-- Between rests that close the level the two are the same. -/
theorem Comparable.eq {D D' : Derivation l} (h : Comparable D D' r r') (hr : Closes l r)
    (hr' : Closes l r') : D = D' ∧ r = r' := by
  rcases h with ⟨ks, rfl, rfl⟩ | ⟨ks, rfl, rfl⟩
  · obtain rfl := hr.links_eq_nil
    exact ⟨rfl, rfl⟩
  · obtain rfl := hr'.links_eq_nil
    exact ⟨rfl, rfl⟩

/-- The first token of a derivation that is tight enough is no prefix. -/
theorem head_ne {t : Token} (D : Derivation l)
    (ht : t = .bang ∧ 3 ≤ l.rank ∨ t = .op .sub ∧ 7 ≤ l.rank) (ts : List Token) :
    D.tokens ++ r ≠ t :: ts := by
  obtain ⟨t', us, heq, -, hbang, hsub⟩ := D.derives.exists_head
  intro h
  rw [heq] at h
  obtain rfl : t' = t := (List.cons.inj h).1
  -- the first token of a tight derivation is known, and it is neither of the two
  rcases ht with ⟨rfl, hl⟩ | ⟨rfl, hl⟩
  · exact hbang hl rfl
  · exact hsub hl rfl

/-- **Settled.** The derivation is comparable to every other of its level whose tokens start the same
row. -/
def Settled (D : Derivation l) : Prop :=
  ∀ (D' : Derivation l) (r r' : List Token),
    D.tokens ++ r = D'.tokens ++ r' → Follows l r → Follows l r' → Comparable D D' r r'

/-- A settled derivation is the only one, where both rests close the level. -/
theorem Settled.eq {D D' : Derivation l} (hD : D.Settled) (h : D.tokens ++ r = D'.tokens ++ r')
    (hr : Closes l r) (hr' : Closes l r') : D = D' ∧ r = r' :=
  (hD D' r r' h hr.follows hr'.follows).eq hr hr'

/-- An operator that compares closes the sum on its left. -/
theorem closes_comparison {op : BinOp} (compares : op.isComparison = true) :
    Closes .sum (.op op :: r) := by
  refine closes_op op ?_
  rw [BinOp.isComparison_iff.1 compares]
  decide

/-- At a level with chains the other derivation is a first operand with links, which the first operand
of this one leaves over. -/
theorem settled_first (more : l ≠ .atom) {inner : Derivation l.next} (ih : inner.Settled)
    (hl : l.isChain = true) : (tighter more inner).Settled := by
  intro D' r r' h hr hr'
  obtain ⟨more, first, ks, rfl⟩ := exists_first hl D'
  rw [tokens_extend, List.append_assoc] at h
  obtain ⟨rfl, rfl⟩ :=
    -- the first operands are followed by links or by the rest, and both close the next level
    ih.eq h (hr.closes_next more) ((follows_links ks hr').closes_next more)
  exact .inl ⟨ks, rfl, rfl⟩

/-- At a level without chains no production but this one starts with the tokens of a tighter
derivation. -/
theorem settled_tighter (more : l ≠ .atom) {inner : Derivation l.next} (ih : inner.Settled)
    (hl : l.isChain = false) : (tighter more inner).Settled := by
  intro D' r r' h hr hr'
  have hclose := hr.closes_next more
  cases D' with
  | tighter more' inner' =>
    obtain ⟨rfl, rfl⟩ := ih.eq h hclose (hr'.closes_next more)
    exact comparable_self _ _
  | chain op own chains left right => exact absurd chains (by simp [hl])
  | not operand => exact absurd h (head_ne inner (.inl ⟨rfl, by decide⟩) _)
  | minus operand => exact absurd h (head_ne inner (.inr ⟨rfl, by decide⟩) _)
  | compare op compares left right =>
    -- the sum would be followed by an operator that compares
    rw [tokens, tokens, List.append_assoc, List.cons_append] at h
    obtain ⟨-, rfl⟩ := ih.eq h hclose (closes_comparison compares)
    exact absurd (BinOp.isComparison_iff.1 compares) (hr.level_ne rfl)
  | power base exponent =>
    -- the atom would be followed by `^`
    rw [tokens, tokens, List.append_assoc, List.cons_append] at h
    obtain ⟨-, rfl⟩ := ih.eq h hclose (closes_op .pow (by decide))
    exact absurd rfl (hr.level_ne rfl)
  | number | truth | var | paren => exact absurd rfl more

/-- Of two chains with tokens in common the longer goes on from the shorter. -/
theorem settled_chain {op : BinOp} (own : op.level = l) (chains : l.isChain = true)
    {left : Derivation l} {right : Derivation l.next} (ihl : left.Settled) (ihr : right.Settled) :
    (chain op own chains left right).Settled := by
  intro D' r r' h hr hr'
  have more : l ≠ .atom := by
    rintro rfl
    exact absurd chains (by decide)
  rw [tokens, List.append_assoc, List.cons_append] at h
  -- the left operand is followed by an operator of the level, so it is settled which of the two
  -- goes on
  rcases ihl D' _ _ h (follows_op own chains) hr' with ⟨ks, rfl, hks⟩ | ⟨ks, rfl, rfl⟩
  · cases ks with
    | nil =>
      -- the other derivation is the left operand
      obtain rfl : Token.op op :: (right.tokens ++ r) = r' := hks
      exact .inr ⟨[⟨op, own, chains, right⟩], rfl, by simp [linkTokens]⟩
    | cons k ks =>
      -- the other derivation goes on from the left operand too, by the same link
      rw [linkTokens, List.cons_append, List.append_assoc, List.cons.injEq, Token.op.injEq] at hks
      obtain ⟨rfl, hks⟩ := hks
      obtain ⟨rfl, rfl⟩ :=
        ihr.eq hks (hr.closes_next more) ((follows_links ks hr').closes_next more)
      exact .inl ⟨ks, rfl, rfl⟩
  · -- the left operand goes on from the other derivation
    exact .inr ⟨ks ++ [⟨op, own, chains, right⟩],
      (extend_concat D' ks ⟨op, own, chains, right⟩).symm,
      (linkTokens_concat ks ⟨op, own, chains, right⟩ r).symm⟩

/-- A negation starts with its sign, and no other production of its level does. -/
theorem settled_not {operand : Derivation .negation} (ih : operand.Settled) :
    (not operand).Settled := by
  intro D' r r' h hr hr'
  cases D' with
  | tighter more inner => exact absurd h.symm (head_ne inner (.inl ⟨rfl, by decide⟩) _)
  | chain op own chains left right => exact absurd chains (by decide)
  | not operand' =>
    obtain ⟨rfl, rfl⟩ := ih.eq (List.cons.inj h).2 (hr.closes rfl) (hr'.closes rfl)
    exact comparable_self _ _

/-- Minus starts with its sign, and no other production of its level does. -/
theorem settled_minus {operand : Derivation .unary} (ih : operand.Settled) :
    (minus operand).Settled := by
  intro D' r r' h hr hr'
  cases D' with
  | tighter more inner => exact absurd h.symm (head_ne inner (.inr ⟨rfl, by decide⟩) _)
  | chain op own chains left right => exact absurd chains (by decide)
  | minus operand' =>
    obtain ⟨rfl, rfl⟩ := ih.eq (List.cons.inj h).2 (hr.closes rfl) (hr'.closes rfl)
    exact comparable_self _ _

/-- The left sum of a comparison is the same in both derivations, and then so is the operator. -/
theorem settled_compare {op : BinOp} (compares : op.isComparison = true)
    {left right : Derivation .sum} (ihl : left.Settled) (ihr : right.Settled) :
    (compare op compares left right).Settled := by
  intro D' r r' h hr hr'
  rw [tokens, List.append_assoc, List.cons_append] at h
  have hop := closes_comparison compares (r := right.tokens ++ r)
  cases D' with
  | tighter more inner =>
    -- a lone sum cannot be followed by an operator that compares
    obtain ⟨-, rfl⟩ := ihl.eq h hop (hr'.closes_next more)
    exact absurd (BinOp.isComparison_iff.1 compares) (hr'.level_ne rfl)
  | chain op own chains left right => exact absurd chains (by decide)
  | compare op' compares' left' right' =>
    rw [tokens, List.append_assoc, List.cons_append] at h
    obtain ⟨rfl, hrest⟩ := ihl.eq h hop (closes_comparison compares')
    -- behind the same left sum both have an operator, and it is the same
    rw [List.cons.injEq, Token.op.injEq] at hrest
    obtain ⟨rfl, hrest⟩ := hrest
    obtain ⟨rfl, rfl⟩ :=
      ihr.eq hrest (hr.closes_next (by decide)) (hr'.closes_next (by decide))
    exact comparable_self _ _

/-- The base of a power is the same in both derivations, and what closes the power closes its
exponent. -/
theorem settled_power {base : Derivation .atom} {exponent : Derivation .unary}
    (ihb : base.Settled) (ihe : exponent.Settled) : (power base exponent).Settled := by
  intro D' r r' h hr hr'
  rw [tokens, List.append_assoc, List.cons_append] at h
  have hop := closes_op .pow (r := exponent.tokens ++ r) (l := .atom) (by decide)
  cases D' with
  | tighter more inner =>
    -- a lone atom cannot be followed by `^`
    obtain ⟨-, rfl⟩ := ihb.eq h hop (hr'.closes_next more)
    exact absurd rfl (hr'.level_ne rfl)
  | chain op own chains left right => exact absurd chains (by decide)
  | power base' exponent' =>
    rw [tokens, List.append_assoc, List.cons_append] at h
    obtain ⟨rfl, hrest⟩ := ihb.eq h hop (closes_op .pow (by decide))
    obtain ⟨rfl, rfl⟩ := ihe.eq (List.cons.inj hrest).2 (hr.closes rfl).unary_of_power
      (hr'.closes rfl).unary_of_power
    exact comparable_self _ _

/-- A number is one token, which no other production of an atom starts with. -/
theorem settled_number (d : Numeral.Decimal) : (number d).Settled := by
  intro D' r r' h hr hr'
  cases D' with
  | tighter more inner => exact absurd rfl more
  | chain op own chains left right => exact absurd chains (by decide)
  | number d' =>
    obtain ⟨heq, rfl⟩ := List.cons.inj h
    obtain rfl := Token.number.inj heq
    exact comparable_self _ _
  | truth | var | paren => exact absurd (List.cons.inj h).1 (by simp)

/-- A truth value is one token, which no other production of an atom starts with. -/
theorem settled_truth (b : Bool) : (truth b).Settled := by
  intro D' r r' h hr hr'
  cases D' with
  | tighter more inner => exact absurd rfl more
  | chain op own chains left right => exact absurd chains (by decide)
  | truth b' =>
    obtain ⟨heq, rfl⟩ := List.cons.inj h
    obtain rfl := Token.truth.inj heq
    exact comparable_self _ _
  | number | var | paren => exact absurd (List.cons.inj h).1 (by simp)

/-- A name is one token, which no other production of an atom starts with. -/
theorem settled_var (s : String) : (var s).Settled := by
  intro D' r r' h hr hr'
  cases D' with
  | tighter more inner => exact absurd rfl more
  | chain op own chains left right => exact absurd chains (by decide)
  | var s' =>
    obtain ⟨heq, rfl⟩ := List.cons.inj h
    obtain rfl := Token.name.inj heq
    exact comparable_self _ _
  | number | truth | paren => exact absurd (List.cons.inj h).1 (by simp)

/-- The closing parenthesis ends what stands inside, in both derivations. -/
theorem settled_paren {inner : Derivation .disjunction} (ih : inner.Settled) :
    (paren inner).Settled := by
  intro D' r r' h hr hr'
  cases D' with
  | tighter more inner => exact absurd rfl more
  | chain op own chains left right => exact absurd chains (by decide)
  | number | truth | var => exact absurd (List.cons.inj h).1 (by simp)
  | paren inner' =>
    simp only [tokens, List.cons_append, List.append_assoc, List.nil_append, List.cons.injEq,
      true_and] at h
    have hclose : ∀ ts, Closes .disjunction (.rparen :: ts) := fun ts => closes_cons (by simp)
    obtain ⟨rfl, hrest⟩ := ih.eq h (hclose r) (hclose r')
    obtain rfl := (List.cons.inj hrest).2
    exact comparable_self _ _

/-- **Derivations are comparable** where their tokens start a common row. -/
theorem settled (D : Derivation l) : D.Settled := by
  induction D with
  | @tighter l more inner ih =>
    -- a level with chains needs the links of the other derivation, any other its productions
    by_cases hl : l.isChain = true
    · exact settled_first more ih hl
    · exact settled_tighter more ih (Bool.not_eq_true _ ▸ hl)
  | chain op own chains left right ihl ihr => exact settled_chain own chains ihl ihr
  | not operand ih => exact settled_not ih
  | compare op compares left right ihl ihr => exact settled_compare compares ihl ihr
  | minus operand ih => exact settled_minus ih
  | power base exponent ihb ihe => exact settled_power ihb ihe
  | number d => exact settled_number d
  | truth b => exact settled_truth b
  | var s => exact settled_var s
  | paren inner ih => exact settled_paren ih

/-- **The grammar is unambiguous.** -/
theorem tokens_inj {D D' : Derivation l} (h : D.tokens = D'.tokens) : D = D' := by
  -- with nothing behind them both rests close the level
  have hnil : Closes l [] := fun op hop => by simp at hop
  exact (D.settled.eq (by simpa using h) hnil hnil).1

end Derivation

/-- The tokens of an expression have one tree. -/
theorem Derives.unique {l : Level} {ts : List Token} {e e' : Expr} (h : Derives l ts e)
    (h' : Derives l ts e') : e = e' := by
  obtain ⟨D, hD, rfl⟩ := derives_iff_derivation.1 h
  obtain ⟨D', hD', rfl⟩ := derives_iff_derivation.1 h'
  rw [Derivation.tokens_inj (hD.trans hD'.symm)]

end Arbor.Expr
