import Arbor.Expr.Printer
import Arbor.Proofs.Expr.Agreement
import Arbor.Proofs.Expr.Parsing

/-!
# Expressions printed and read again

The text of an expression that was parsed is always an expression again. Every operator is printed
with its operands inside parentheses, so the tree comes back, but for one case: a negative literal is
printed bare, and on the left of `^` its minus is read as that of the whole power. `(-2)^0` is printed
as `(-2 ^ 0)`, which is minus one. What a tree comes back as is `Expr.reread`, and it has the outcome
of that in every environment (`Expr.same_outcome_of_text`). It is the tree itself where no negative
literal is raised to a power (`Expr.NoNegativeBase`).

Not every tree is one that was parsed. A parsed tree has names for names, numbers for numbers, and no
minus in front of a literal, because that is folded (`Expr.Legible`).

The proof reads the printed text piece by piece (`Expr.readsBack_of_legible`, with one lemma for each
form of a tree), with an arbitrary text behind it that does not go on with a name or a number
(`Token.Apart`).
-/

namespace Arbor

open Numeral (Same)

/-! ### What may stand beside a token -/

namespace Token

variable {t u : Token} {us : List Token} {l cs rest : List Char}

/-- What goes on with no name and no number. -/
def Apart (rest : List Char) : Prop := ∀ c, rest.head? = some c → isNameRest c = false ∧ c ≠ '.'

/-- At the end of a text nothing goes on. -/
theorem apart_nil : Apart [] := by
  intro c hc
  cases hc

/-- A character that belongs to no name and to no number goes on with neither. -/
theorem apart_cons {c : Char} (h : isNameRest c = false ∧ c ≠ '.') : Apart (c :: rest) := by
  intro d hd
  obtain rfl : c = d := Option.some.inj hd
  exact h

/-- What goes on with no name goes on with no number: digits and the mark of an exponent are of
names. -/
theorem Apart.numeralEnds (h : Apart rest) : NumeralEnds rest := by
  intro c hc
  obtain ⟨hname, hpoint⟩ := h c hc
  refine ⟨?_, hpoint, ?_, ?_⟩
  · rw [Bool.eq_false_iff]
    intro hdigit
    simp [isNameRest, Char.isAlphanum, hdigit] at hname
  · rintro rfl
    exact absurd hname (by decide)
  · rintro rfl
    exact absurd hname (by decide)

/-- A gap in front of tokens changes nothing. -/
theorem Reads.gap (h : Reads cs (t :: us) rest) : Reads (' ' :: cs) (t :: us) rest := by
  obtain ⟨mid, hfirst, hmore⟩ := h.exists_of_cons
  exact .cons hfirst hmore

/-- A lexeme is read where it ends. -/
theorem Lexeme.next? (h : Lexeme t l) (hends : t.Ends rest) : next? (l ++ rest) = some (t, rest) :=
  next?_of_lexeme_ends h (h.skipGaps_append rest) hends

/-- An operand prolongs neither a minus nor a `!` before it. -/
theorem Reads.head?_ne {c : Char} (h : Reads cs (u :: us) rest) (hu : u.startsOperand = true)
    (hc : c = '>' ∨ c = '=') : cs.head? ≠ some c := by
  obtain ⟨mid, hfirst, -⟩ := h.exists_of_cons
  obtain ⟨l, hl, hcs⟩ := exists_lexeme_of_next? hfirst
  exact hl.head?_ne hu hcs hc

end Token

namespace Expr

open Token (next? Reads Apart)

/-! ### Trees that were parsed -/

/-- Whether an expression is a literal, a number or a truth value. -/
def isLiteral : Expr → Bool
  | num _ | truth _ => true
  | _ => false

/-- **Legible.** Names are names, numbers are numbers, and no minus stands before a literal. -/
def Legible : Expr → Prop
  | num v => v.isNaN = false
  | truth _ => True
  | var name => Token.Lexeme (.name name) name.toList
  | neg e => e.isLiteral = false ∧ e.Legible
  | not e => e.Legible
  | bin _ a b => a.Legible ∧ b.Legible

/-- A negative number as a literal. -/
def Negative (e : Expr) : Prop := ∃ v, e = .num v ∧ v < 0.0

/-- No power has a negative literal for its left operand. -/
def NoNegativeBase : Expr → Prop
  | num _ | truth _ | var _ => True
  | neg e | not e => e.NoNegativeBase
  | bin op a b => (op = .pow → ¬ a.Negative) ∧ a.NoNegativeBase ∧ b.NoNegativeBase

/-- A power as its text is read: the minus of a negative literal on the left is that of the power. -/
def rereadPower : Expr → Expr → Expr
  | num v, b => if v < 0.0 then neg (bin .pow (num (-v)) b) else bin .pow (num v) b
  | a, b => bin .pow a b

/-- **Reread.** The tree that the text of a tree stands for. -/
def reread : Expr → Expr
  | num v => num v
  | truth b => truth b
  | var name => var name
  | neg e => neg e.reread
  | not e => not e.reread
  | bin op a b => if op = .pow then rereadPower a.reread b.reread else bin op a.reread b.reread

/-- Without a negative literal on the left the power is read as it is. -/
theorem rereadPower_eq {a b : Expr} (h : ¬ a.Negative) : rereadPower a b = bin .pow a b := by
  cases a with
  | num v => exact if_neg fun hv => h ⟨v, rfl, hv⟩
  | _ => rfl

/-- Without a negative literal to the left of `^` the text stands for the tree. -/
theorem NoNegativeBase.reread_eq {e : Expr} (h : e.NoNegativeBase) : e.reread = e := by
  induction e with
  | num | truth | var => rfl
  | neg e ih => rw [reread, ih h]
  | not e ih => rw [reread, ih h]
  | bin op a b iha ihb =>
    obtain ⟨hbase, ha, hb⟩ := h
    rw [reread, iha ha, ihb hb]
    split
    · next hop =>
      subst hop
      exact rereadPower_eq (hbase rfl)
    · rfl

/-- What a tree comes back as is a literal just if the tree is one. -/
theorem isLiteral_reread (e : Expr) : e.reread.isLiteral = e.isLiteral := by
  cases e with
  | bin op a b =>
    rw [reread]
    split
    · -- a power comes back as a power or as the minus of one
      cases a.reread with
      | num v =>
        rw [rereadPower]
        split <;> rfl
      | _ => rfl
    · rfl
  | _ => rfl

/-- Only a negative literal comes back as one. -/
theorem Negative.of_reread {e : Expr} (h : e.reread.Negative) : e.Negative := by
  obtain ⟨v, hv, hneg⟩ := h
  have hliteral := isLiteral_reread e
  rw [hv] at hliteral
  cases e with
  | num w => exact ⟨v, hv, hneg⟩
  | truth b => cases hv
  -- a tree that is no literal does not come back as one
  | _ => exact absurd hliteral (by simp [isLiteral])

/-- Minus something that is no literal is not folded. -/
theorem negated_eq {e : Expr} (h : e.isLiteral = false) : e.negated = neg e := by
  cases e with
  | num | truth => exact absurd h (by simp [isLiteral])
  | _ => rfl

/-- Trees that agree do so under a minus, folded or not. -/
theorem Agrees.negated {e f : Expr} (h : Agrees e f) : Agrees e.negated f.negated := by
  cases h with
  | num numbers => exact .num numbers.neg
  -- a truth value becomes the same number in both
  | truth b => exact .num (.refl _)
  | var name => exact .neg (.var name)
  | neg operands => exact .neg (.neg operands)
  | not operands => exact .neg (.not operands)
  | bin op left right => exact .neg (.bin op left right)

/-! ### Levels of printed text -/

section Levels

variable {l m : Level} {ts us : List Token} {e a b : Expr} {op : BinOp}

/-- An expression of a level is one of every looser level. -/
theorem Derives.loosen (h : Derives l ts e) (hm : m.rank ≤ l.rank) : Derives m ts e := by
  obtain ⟨k, hk⟩ := Nat.exists_eq_add_of_le hm
  induction k generalizing m with
  | zero =>
    obtain rfl := Level.rank_inj hk
    exact h
  | succ k ih =>
    -- only levels that are looser than some other have a next one
    have hne : m ≠ .atom := by
      rintro rfl
      -- no level is tighter than an atom
      have : l.rank ≤ 8 := by cases l <;> decide
      rw [hk] at this
      change 8 + (k + 1) ≤ 8 at this
      omega
    refine .tighter hne (ih ?_ ?_) <;>
    · rw [Level.rank_next hne]
      omega

/-- Operands in parentheses of their own are tight enough for every operator. -/
theorem Derives.bin (ha : Derives l ts a) (hl : 6 ≤ l.rank) (hbase : op = .pow → l = .atom)
    (hb : Derives .unary us b) : Derives op.level (ts ++ .op op :: us) (.bin op a b) := by
  have ha' : ∀ m : Level, m.rank ≤ 6 → Derives m ts a := fun m hm => ha.loosen (hm.trans hl)
  cases op with
  -- any other operator takes a left operand that is as tight as prefix minus
  | or | and | add | sub | mul | div => exact .chain rfl (ha' _ (by decide)) (hb.loosen (by decide))
  | lt | le | gt | ge | eq | ne => exact .compare rfl (ha' _ (by decide)) (hb.loosen (by decide))
  -- the base of a power has to be an atom
  | pow =>
    obtain rfl := hbase rfl
    exact .power ha hb

end Levels

/-! ### Reading what was printed -/

/-- **Reading a text as a tree.** Up to `rest` the text is an expression of the level `l` whose tree
agrees with `e`. -/
def ReadsAs (l : Level) (cs : List Char) (e : Expr) (rest : List Char) : Prop :=
  ∃ ts f, Reads cs ts rest ∧ Derives l ts f ∧ Agrees f e

namespace ReadsAs

variable {l m : Level} {cs cs' rest : List Char} {a b e : Expr}

/-- What is read as of one level is read as of every looser one. -/
theorem loosen (h : ReadsAs l cs e rest) (hm : m.rank ≤ l.rank) : ReadsAs m cs e rest := by
  obtain ⟨ts, f, hreads, hderives, hagrees⟩ := h
  exact ⟨ts, f, hreads, hderives.loosen hm, hagrees⟩

/-- A gap before the text changes nothing. -/
theorem gap (h : ReadsAs l cs e rest) : ReadsAs l (' ' :: cs) e rest := by
  obtain ⟨ts, f, hreads, hderives, hagrees⟩ := h
  obtain ⟨t, us, rfl, -⟩ := hderives.exists_head
  exact ⟨_, f, hreads.gap, hderives, hagrees⟩

/-- A numeral is read as the number, up to the sign of zero. -/
theorem number {k : List Char} {d : Numeral.Decimal} {v : Float} (hd : Numeral k d)
    (hv : Same d.toFloat v) (hrest : Apart rest) : ReadsAs .atom (k ++ rest) (.num v) rest :=
  ⟨_, _, .one (Token.Lexeme.next? (.number hd) hrest.numeralEnds), .number d, .num hv⟩

/-- A kept word is read as its truth value. -/
theorem truth (b : Bool) (hrest : Apart rest) :
    ReadsAs .atom ((if b then "true" else "false").toList ++ rest) (.truth b) rest :=
  ⟨_, _, .one (Token.Lexeme.next? (.truth b) fun c hc => (hrest c hc).1), .truth b, .truth b⟩

/-- A name is read as a variable. -/
theorem var {name : String} (hname : Token.Lexeme (.name name) name.toList) (hrest : Apart rest) :
    ReadsAs .atom (name.toList ++ rest) (.var name) rest :=
  ⟨_, _, .one (hname.next? fun c hc => (hrest c hc).1), .var name, .var name⟩

/-- What stands in parentheses is read as an atom. -/
theorem paren (h : ReadsAs .disjunction cs e (')' :: rest)) : ReadsAs .atom ('(' :: cs) e rest := by
  obtain ⟨ts, f, hreads, hderives, hagrees⟩ := h
  have hopen : next? ('(' :: cs) = some (.lparen, cs) := Token.Lexeme.lparen.next? trivial
  have hclose : next? (')' :: rest) = some (.rparen, rest) := Token.Lexeme.rparen.next? trivial
  exact ⟨_, f, .cons hopen (hreads.append (.one hclose)), .paren hderives, hagrees⟩

/-- Behind a minus an expression is read as its negation. -/
theorem minus (h : ReadsAs .unary cs e rest) : ReadsAs .unary ('-' :: cs) e.negated rest := by
  obtain ⟨ts, f, hreads, hderives, hagrees⟩ := h
  obtain ⟨t, us, rfl, hstart, -⟩ := hderives.exists_head
  -- what follows the minus starts an operand, so the two are no arrow
  have hminus : next? ('-' :: cs) = some (.op .sub, cs) :=
    (Token.Lexeme.op .sub).next? (hreads.head?_ne hstart (.inl rfl))
  exact ⟨_, _, .cons hminus hreads, .minus hderives, hagrees.negated⟩

/-- Behind `!` an expression is read as its negation. -/
theorem not (h : ReadsAs .negation cs e rest) : ReadsAs .negation ('!' :: cs) (.not e) rest := by
  obtain ⟨ts, f, hreads, hderives, hagrees⟩ := h
  obtain ⟨t, us, rfl, hstart, -⟩ := hderives.exists_head
  -- what follows the sign starts an operand, so the two are no `!=`
  have hbang : next? ('!' :: cs) = some (.bang, cs) :=
    Token.Lexeme.bang.next? (hreads.head?_ne hstart (.inr rfl))
  exact ⟨_, _, .cons hbang hreads, .not hderives, .not hagrees⟩

/-- An operator with a gap on either side. -/
theorem bin (op : BinOp) (ha : ReadsAs l cs a (' ' :: (op.text.toList ++ ' ' :: cs'))) (hl : 6 ≤ l.rank)
    (hbase : op = .pow → l = .atom) (hb : ReadsAs .unary cs' b rest) :
    ReadsAs op.level cs (.bin op a b) rest := by
  obtain ⟨ts, f, hreads, hderives, hagrees⟩ := ha
  obtain ⟨us, g, hreads', hderives', hagrees'⟩ := hb.gap
  -- the gap behind the operator keeps it from being prolonged
  have hends : (Token.op op).Ends (' ' :: cs') := by cases op <;> simp [Token.Ends]
  have hop : next? (' ' :: (op.text.toList ++ ' ' :: cs')) = some (.op op, ' ' :: cs') :=
    (Token.Lexeme.op op).next? hends
  exact ⟨_, _, hreads.append (.cons hop hreads'), .bin hderives hl hbase hderives',
    .bin op hagrees hagrees'⟩

end ReadsAs

/-- The level of the text of an expression: only a negative literal has a sign of its own. -/
def textLevel : Expr → Level
  | num v => if v < 0.0 then .unary else .atom
  | _ => .atom

/-- Printed text is at least as tight as prefix minus. -/
theorem le_rank_textLevel (e : Expr) : 6 ≤ e.textLevel.rank := by
  cases e with
  | num v =>
    rw [textLevel]
    split <;> decide
  | _ => exact (by decide : 6 ≤ 8)

/-- What is no negative literal is printed as an atom. -/
theorem textLevel_eq {e : Expr} (h : ¬ e.Negative) : e.textLevel = .atom := by
  cases e with
  | num v => exact if_neg fun hv => h ⟨v, rfl, hv⟩
  | _ => rfl

/-- A negative literal is a minus before a literal. -/
theorem readsAs_negative {v : Float} (hv : v.isFinite = true) (hneg : v < 0.0) :
    ∃ k, (Numeral.text v).toList = '-' :: k ∧
      ∀ rest, Apart rest → ReadsAs .atom (k ++ rest) (.num (-v)) rest := by
  obtain ⟨k, d, hd, ⟨hpos, -, -⟩ | ⟨-, htext, hvalue⟩⟩ := Numeral.text_numeral hv
  · exact absurd hneg hpos
  · exact ⟨k, htext, fun rest hrest => .number hd (.inl hvalue) hrest⟩

/-- **Read back.** With nothing behind it that goes on with it, the text of a tree is read as the tree
that it stands for. -/
def ReadsBack (e : Expr) : Prop :=
  ∀ rest : List Char, Apart rest → ReadsAs e.textLevel (e.text.toList ++ rest) e.reread rest

/-- A number is written as a numeral, behind a minus if it is negative. -/
theorem readsBack_num {v : Float} (hv : v.isFinite = true) : ReadsBack (num v) := by
  intro rest hrest
  rw [textLevel, text, reread]
  split
  · next hneg =>
    obtain ⟨k, htext, hk⟩ := readsAs_negative hv hneg
    have hminus := ((hk rest hrest).loosen (m := .unary) (by decide)).minus
    rw [negated, Numeral.neg_neg hv] at hminus
    rwa [htext]
  · next hpos =>
    obtain ⟨k, d, hd, ⟨-, htext, hvalue⟩ | ⟨hneg, -, -⟩⟩ := Numeral.text_numeral hv
    · rw [htext]
      exact .number hd hvalue hrest
    · exact absurd hneg hpos

/-- The parenthesis that closes goes on with no name and no number. -/
theorem apart_close (rest : List Char) : Apart (')' :: rest) := Token.apart_cons (by decide)

/-- Minus is written in parentheses with its operand, which is no literal and so is not folded. -/
theorem readsBack_neg {e : Expr} (hliteral : e.isLiteral = false) (ih : ReadsBack e) :
    ReadsBack (neg e) := by
  intro rest _
  have hinner := (ih _ (apart_close rest)).loosen (m := .unary) (le_rank_textLevel e)
  have hminus := hinner.minus.loosen (m := .disjunction) (by decide)
  rw [negated_eq (by rw [isLiteral_reread, hliteral])] at hminus
  have htext : (neg e).text.toList ++ rest = '(' :: '-' :: (e.text.toList ++ ')' :: rest) := by
    simp [text]
  rw [htext]
  exact hminus.paren

/-- A negation is written in parentheses with its operand. -/
theorem readsBack_not {e : Expr} (ih : ReadsBack e) : ReadsBack (not e) := by
  intro rest _
  have hrank : Level.rank .negation ≤ e.textLevel.rank :=
    Nat.le_trans (by decide) (le_rank_textLevel e)
  have hinner := (ih _ (apart_close rest)).loosen hrank
  have htext : (not e).text.toList ++ rest = '(' :: '!' :: (e.text.toList ++ ')' :: rest) := by
    simp [text]
  rw [htext]
  exact (hinner.not.loosen (m := .disjunction) (by decide)).paren

/-- An operator is written in parentheses, with a gap between it and each operand. -/
theorem text_bin_append (op : BinOp) (a b : Expr) (rest : List Char) :
    (bin op a b).text.toList ++ rest = '(' :: (a.text.toList ++
      ' ' :: (op.text.toList ++ ' ' :: (b.text.toList ++ ')' :: rest))) := by
  simp [text]

/-- A gap goes on with no name and no number. -/
theorem apart_gap (cs : List Char) : Apart (' ' :: cs) := Token.apart_cons (by decide)

/-- A power with a negative literal on the left: the minus of the literal comes before the whole. -/
theorem readsBack_negativeBase {v : Float} {b : Expr} (hv : v.isFinite = true) (hneg : v < 0.0)
    (ihb : ReadsBack b) : ReadsBack (bin .pow (num v) b) := by
  intro rest _
  obtain ⟨k, hk, hread⟩ := readsAs_negative hv hneg
  have hright := (ihb _ (apart_close rest)).loosen (m := .unary) (le_rank_textLevel b)
  have hpower := (hread _ (apart_gap _)).bin .pow (by decide) (fun _ => rfl) hright
  have htree : (bin .pow (num v) b).reread = (bin .pow (num (-v)) b.reread).negated := if_pos hneg
  rw [text_bin_append, htree, text, hk]
  exact ((hpower.loosen (m := .unary) (by decide)).minus.loosen (by decide)).paren

/-- Any other operator comes back with its operands. -/
theorem readsBack_bin {op : BinOp} {a b : Expr} (hbase : op = .pow → ¬ a.Negative)
    (iha : ReadsBack a) (ihb : ReadsBack b) : ReadsBack (bin op a b) := by
  intro rest _
  have hleft := iha _ (apart_gap (op.text.toList ++ ' ' :: (b.text.toList ++ ')' :: rest)))
  have hright := (ihb _ (apart_close rest)).loosen (m := .unary) (le_rank_textLevel b)
  have hlevel : op = .pow → a.textLevel = .atom := fun hop => textLevel_eq (hbase hop)
  have htree : (bin op a b).reread = bin op a.reread b.reread := by
    rw [reread]
    split
    · next hop =>
      -- the base does not come back as a negative literal, as it is none
      subst hop
      exact rereadPower_eq fun hneg => hbase rfl hneg.of_reread
    · rfl
  rw [text_bin_append, htree]
  exact ((hleft.bin op (le_rank_textLevel a) hlevel hright).loosen (Nat.zero_le _)).paren

/-- **The text of a tree** is read as the tree that it stands for. -/
theorem readsBack_of_legible {e : Expr} (hlegible : e.Legible)
    (hfinite : ∀ v ∈ e.literals, v.isFinite = true) : ReadsBack e := by
  induction e with
  | num v => exact readsBack_num (hfinite v (List.mem_singleton.2 rfl))
  | truth b => exact fun _ hrest => .truth b hrest
  | var name => exact fun _ hrest => .var hlegible hrest
  | neg e ih => exact readsBack_neg hlegible.1 (ih hlegible.2 hfinite)
  | not e ih => exact readsBack_not (ih hlegible hfinite)
  | bin op a b iha ihb =>
    have ha := iha hlegible.1 fun v hv => hfinite v (List.mem_append_left _ hv)
    have hb := ihb hlegible.2 fun v hv => hfinite v (List.mem_append_right _ hv)
    by_cases hbase : op = .pow ∧ a.Negative
    · obtain ⟨rfl, v, rfl, hneg⟩ := hbase
      exact readsBack_negativeBase (hfinite v List.mem_cons_self) hneg hb
    · exact readsBack_bin (fun hop hneg => hbase ⟨hop, hneg⟩) ha hb

/-! ### What is parsed is legible -/

/-- Minus a legible tree is legible: literals are folded, and before anything else a minus may
stand. -/
theorem Legible.negated {e : Expr} (h : e.Legible) : e.negated.Legible := by
  cases e with
  | num v => exact Numeral.isNaN_neg h
  | truth b => cases b <;> rfl
  | var name | neg e | not e | bin op a b => exact ⟨rfl, h⟩

/-- The literals of a legible tree are numbers. -/
theorem Legible.isNaN_eq_false {e : Expr} (h : e.Legible) : ∀ v ∈ e.literals, v.isNaN = false := by
  induction e with
  | num v =>
    intro w hw
    obtain rfl := List.mem_singleton.1 hw
    exact h
  | truth | var => exact fun v hv => absurd hv List.not_mem_nil
  | neg e ih => exact ih h.2
  | not e ih => exact ih h
  | bin op a b iha ihb =>
    intro v hv
    rcases List.mem_append.1 hv with hv | hv
    · exact iha h.1 v hv
    · exact ihb h.2 v hv

/-- The tree of tokens that were read is legible. -/
theorem Derives.legible {l : Level} {ts : List Token} {e : Expr} (h : Derives l ts e)
    (hts : ∀ t ∈ ts, ∃ k, t.Lexeme k) : e.Legible := by
  induction h with
  | tighter _ _ ih => exact ih hts
  | chain _ _ _ iha ihb | compare _ _ _ iha ihb | power _ _ iha ihb =>
    -- the tokens of the operands are among those of the whole
    exact ⟨iha fun t ht => hts t (List.mem_append_left _ ht),
      ihb fun t ht => hts t (List.mem_append_right _ (List.mem_cons_of_mem _ ht))⟩
  | not _ ih => exact ih fun t ht => hts t (List.mem_cons_of_mem _ ht)
  -- the minus is folded if there is a literal behind it
  | minus _ ih => exact (ih fun t ht => hts t (List.mem_cons_of_mem _ ht)).negated
  | number d => exact Numeral.isNaN_toFloat d
  | truth b => trivial
  -- a name stands as it was read, so it is the lexeme of its token
  | var s =>
    obtain ⟨k, hk⟩ := hts _ List.mem_cons_self
    have hname : s.toList = k := by
      cases hk
      exact String.toList_ofList
    rw [Legible, hname]
    exact hk
  | paren _ ih => exact ih fun t ht => hts t (List.mem_cons_of_mem _ (List.mem_append_left _ ht))

/-- Tokens that were read have lexemes. -/
theorem exists_lexeme_of_reads {ts : List Token} {cs rest : List Char} (h : Reads cs ts rest) :
    ∀ t ∈ ts, ∃ k, t.Lexeme k := by
  refine h.forall_mem fun t cs rest hnext => ?_
  obtain ⟨k, hk, -⟩ := Token.exists_lexeme_of_next? hnext
  exact ⟨k, hk⟩

/-- **A tree that was parsed** is legible. -/
theorem legible_of_parse {s : String} {e : Expr} (h : parse s = .ok e) : e.Legible := by
  obtain ⟨D, ⟨rest, hchain, -⟩, rfl⟩ := ofChars?_eq_some_iff.1 (parse_eq_ok_iff.1 h)
  exact D.derives.legible (exists_lexeme_of_reads (D.derives.reads hchain))

/-- The text of a legible tree is parsed as what it stands for. -/
theorem parse_text_agrees {e : Expr} (hlegible : e.Legible)
    (hfinite : ∀ v ∈ e.literals, v.isFinite = true) :
    ∃ f, parse e.text = .ok f ∧ Agrees f e.reread := by
  obtain ⟨ts, f, hreads, hderives, hagrees⟩ :=
    -- the text is read up to its end, as an expression of the loosest level
    (readsBack_of_legible hlegible hfinite [] Token.apart_nil).loosen (m := .disjunction) (Nat.zero_le _)
  rw [List.append_nil] at hreads
  have htake := take?_complete hderives hreads fun op r => by simp [next?, Token.skipGaps]
  refine ⟨f, ?_, hagrees⟩
  rw [parse_eq_ok_iff, ofChars?, htake]
  rfl

/-- **The text of a parsed tree** is an expression, and stands for `e.reread`: in every environment
the two have the same outcome. Where no negative literal is raised to a power, that is the outcome of
the tree. -/
theorem same_outcome_of_text {s : String} {e : Expr} (h : parse s = .ok e)
    (hfinite : ∀ v ∈ e.literals, v.isFinite = true) :
    ∃ f, parse e.text = .ok f ∧ (∀ env, SameOutcome (f.eval env) (e.reread.eval env)) ∧
      (e.NoNegativeBase → ∀ env, SameOutcome (f.eval env) (e.eval env)) := by
  obtain ⟨f, hparse, hagrees⟩ := parse_text_agrees (legible_of_parse h) hfinite
  refine ⟨f, hparse, fun env => hagrees.eval env, fun hbase env => ?_⟩
  -- without a negative base the text stands for the tree itself
  rw [hbase.reread_eq] at hagrees
  exact hagrees.eval env

/-- A negative exponent is printed without parentheses, and read as it was. -/
theorem same_outcome_of_text_exponent :
    parse "2^-1.5 < -x" =
        .ok (.bin .lt (.bin .pow (.num 2.0) (.num (-1.5))) (.neg (.var "x"))) ∧
      ∃ f, parse "((2 ^ -1.5) < (-x))" = .ok f ∧ ∀ env, SameOutcome (f.eval env)
        ((bin .lt (.bin .pow (.num 2.0) (.num (-1.5))) (.neg (.var "x"))).eval env) := by
  let e : Expr := .bin .lt (.bin .pow (.num 2.0) (.num (-1.5))) (.neg (.var "x"))
  have hparse : parse "2^-1.5 < -x" = .ok e := by decide +kernel
  have hfinite : ∀ v ∈ e.literals, v.isFinite = true := by decide +kernel
  -- the base is no negative literal, though the exponent is one
  have htwo : ¬ (Expr.num 2.0).Negative := by
    rintro ⟨v, ⟨⟩, hneg⟩
    exact absurd hneg (by decide +kernel)
  have hbase : e.NoNegativeBase := ⟨nofun, ⟨fun _ => htwo, trivial, trivial⟩, trivial⟩
  have htext : e.text = "((2 ^ -1.5) < (-x))" := by decide +kernel
  obtain ⟨f, hf, -, hsame⟩ := same_outcome_of_text hparse hfinite
  rw [htext] at hf
  exact ⟨hparse, f, hf, hsame hbase⟩

/-- A negative base is printed without parentheses too, and read as the minus of a power. -/
theorem not_same_outcome_of_text :
    ¬ ∀ (s : String) (e : Expr), parse s = .ok e → (∀ v ∈ e.literals, v.isFinite = true) →
      ∃ f, parse e.text = .ok f ∧ ∀ env, SameOutcome (f.eval env) (e.eval env) := by
  intro hall
  let e : Expr := .bin .pow (.num (-2.0)) (.num 0.0)
  let g : Expr := .neg (.bin .pow (.num 2.0) (.num 0.0))
  have hparse : parse "(-2)^0" = .ok e := by decide +kernel
  obtain ⟨f, hf, hsame⟩ := hall "(-2)^0" e hparse (by decide +kernel)
  have htext : parse e.text = .ok g := by decide +kernel
  rw [htext] at hf
  obtain rfl := Except.ok.inj hf
  -- one against minus one
  have hone : e.eval Env.empty = .ok 1.0 := by rfl
  have hminus : g.eval Env.empty = .ok (-1.0) := by rfl
  have hsame := hsame Env.empty
  rw [hone, hminus] at hsame
  cases hsame with
  | ok results =>
    rcases results with heq | ⟨hzero, -⟩
    · exact absurd heq (by decide +kernel)
    · exact absurd hzero (by decide +kernel)

end Expr

end Arbor
