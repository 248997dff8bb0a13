import Arbor.Expr.Token
import Mathlib.Data.List.TakeWhile

/-!
# Lexemes

What a token looks like, said without reading it: `Token.Lexeme t l` says that the characters `l`
are a way of writing the token `t`, and `Numeral l d` that they are a way of writing the number `d`.
A word in the lexical sense is an `Identifier`; two of them are kept for the truth values, and all
others are names. Against this `Token.next?` is the reader of longest lexemes:

* `Token.exists_lexeme_of_next?`: what it reads is a lexeme of the token;
* `Token.next?_of_lexeme`: where a token has a lexeme, the reader gets at least as far; if it gets
  just as far, it has read that token; and it does so if what follows cannot prolong the lexeme
  (`Token.Ends`);
* `Token.next?_of_identifier`: the same of a word, whether it is kept or not.

Of numbers the second comes from one lemma, `number?_append`: on a text that starts with a numeral
the reader gets at least as far as the numeral, and just as far if it ends there.
-/

namespace Arbor

open Numeral

/-! ### Numerals -/

/-- The digits of a numeral before its exponent, and how many of them stand after the point. -/
inductive Mantissa : List Char → List Char → Nat → Prop
  | whole {w : List Char} (digits : ∀ c ∈ w, c.isDigit = true) (nonempty : w ≠ []) :
      Mantissa w w 0
  | pointed {w f : List Char} (whole : ∀ c ∈ w, c.isDigit = true)
      (fraction : ∀ c ∈ f, c.isDigit = true) (nonempty : w ++ f ≠ []) :
      Mantissa (w ++ '.' :: f) (w ++ f) f.length

/-- The sign of an exponent, and whether it is a minus. -/
inductive ExponentSign : List Char → Bool → Prop
  | none : ExponentSign [] false
  | plus : ExponentSign ['+'] false
  | minus : ExponentSign ['-'] true

/-- The exponent part of a numeral, which may be missing. -/
inductive ExponentPart : List Char → Int → Prop
  | none : ExponentPart [] 0
  | some {e : Char} {sign ds : List Char} {negative : Bool} (mark : e = 'e' ∨ e = 'E')
      (signed : ExponentSign sign negative) (digits : ∀ c ∈ ds, c.isDigit = true)
      (nonempty : ds ≠ []) :
      ExponentPart (e :: (sign ++ ds)) (if negative then -(ofDigits ds : Int) else ofDigits ds)

/-- **Numeral.** Digits with at most one point, then an exponent part. -/
def Numeral (l : List Char) (d : Decimal) : Prop :=
  ∃ m ds places x e, Mantissa m ds places ∧ ExponentPart x e ∧ l = m ++ x ∧
    d = ⟨ofDigits ds, e - places⟩

/-- What follows cannot prolong a numeral. -/
def NumeralEnds (rest : List Char) : Prop :=
  ∀ c, rest.head? = some c → c.isDigit = false ∧ c ≠ '.' ∧ c ≠ 'e' ∧ c ≠ 'E'

namespace Token

/-! ### Runs of characters -/

section Runs

variable {p : Char → Bool} {l rest : List Char}

/-- A run of characters that what follows does not go on with is taken as it is. -/
theorem takeWhile_run (hl : ∀ c ∈ l, p c = true) (hrest : ∀ c, rest.head? = some c → p c = false) :
    (l ++ rest).takeWhile p = l := by
  rw [List.takeWhile_append_of_pos hl]
  cases rest with
  | nil => simp
  | cons c rest => simp [hrest c rfl]

/-- And what follows is left over. -/
theorem dropWhile_run (hl : ∀ c ∈ l, p c = true) (hrest : ∀ c, rest.head? = some c → p c = false) :
    (l ++ rest).dropWhile p = rest := by
  rw [List.dropWhile_append_of_pos hl]
  cases rest with
  | nil => rfl
  | cons c rest => simp [hrest c rfl]

/-- What is left over after a run is no longer than the text. -/
theorem length_dropWhile_le (p : Char → Bool) (l : List Char) :
    (l.dropWhile p).length ≤ l.length := (List.dropWhile_sublist p).length_le

/-- After all digits are dropped no digit comes first. -/
theorem head?_dropWhile_isDigit (cs : List Char) (c : Char)
    (h : (cs.dropWhile Char.isDigit).head? = some c) : c.isDigit = false := by
  have := List.head?_dropWhile_not Char.isDigit cs
  rw [h] at this
  simpa using this

end Runs

/-! ### Reading a numeral -/

/-- Every text starts with a sign, which is empty if no other is there. -/
theorem exists_sign (cs : List Char) :
    ∃ sign negative r, ExponentSign sign negative ∧ cs = sign ++ r ∧
      (sign = [] → ∀ c, r.head? = some c → c ≠ '-' ∧ c ≠ '+') := by
  cases cs with
  | nil => exact ⟨[], false, [], .none, rfl, by simp⟩
  | cons c r =>
    by_cases hminus : c = '-'
    · exact ⟨['-'], true, r, .minus, by simp [hminus], by simp⟩
    · by_cases hplus : c = '+'
      · exact ⟨['+'], false, r, .plus, by simp [hplus], by simp⟩
      · exact ⟨[], false, c :: r, .none, rfl, by simp [hminus, hplus]⟩

/-- What is read of an exponent part after its mark and sign. -/
theorem exponent?_signed {e : Char} {sign r : List Char} {negative : Bool} (mark : e = 'e' ∨ e = 'E')
    (signed : ExponentSign sign negative)
    (hr : sign = [] → ∀ c, r.head? = some c → c ≠ '-' ∧ c ≠ '+') :
    exponent? (e :: (sign ++ r)) =
      if r.takeWhile Char.isDigit = [] then none
      else some (if negative then -(ofDigits (r.takeWhile Char.isDigit) : Int)
        else ofDigits (r.takeWhile Char.isDigit), r.dropWhile Char.isDigit) := by
  cases signed with
  -- without a sign the first character must not look like one
  | none =>
    cases r with
    | nil => simp [exponent?, mark]
    | cons c r =>
      -- so the reader goes to its third case
      obtain ⟨hminus, hplus⟩ := hr rfl c rfl
      simp only [exponent?, if_pos mark, List.nil_append]
      split
      · next heq => exact absurd (List.cons.inj heq).1 hminus
      · next heq => exact absurd (List.cons.inj heq).1 hplus
      · rfl
  | plus => simp [exponent?, mark]
  | minus => simp [exponent?, mark]

/-- What is read of an exponent is an exponent part. -/
theorem exponent?_sound {cs rest : List Char} {e : Int} (h : exponent? cs = some (e, rest)) :
    ∃ x, ExponentPart x e ∧ cs = x ++ rest := by
  cases cs with
  | nil => simp [exponent?] at h
  | cons c cs =>
    by_cases hmark : c = 'e' ∨ c = 'E'
    · obtain ⟨sign, negative, r, hsign, rfl, hr⟩ := exists_sign cs
      rw [exponent?_signed hmark hsign hr] at h
      split at h
      · -- the mark without digits after it is no exponent
        simp at h
      next hds =>
        simp only [Option.some.injEq, Prod.mk.injEq] at h
        obtain ⟨rfl, rfl⟩ := h
        refine ⟨_, .some hmark hsign (fun c hc => List.mem_takeWhile_imp hc) hds, ?_⟩
        rw [List.cons_append, List.append_assoc, List.takeWhile_append_dropWhile]
    · -- without the mark nothing is read
      simp [exponent?, hmark] at h

/-- The reader of an exponent gets at least as far as an exponent part. -/
theorem exponent?_append {e : Char} {sign ds : List Char} {negative : Bool} (rest : List Char)
    (mark : e = 'e' ∨ e = 'E') (signed : ExponentSign sign negative)
    (digits : ∀ c ∈ ds, c.isDigit = true) (nonempty : ds ≠ []) :
    exponent? (e :: (sign ++ (ds ++ rest))) =
      some (if negative then -(ofDigits (ds ++ rest.takeWhile Char.isDigit) : Int)
        else ofDigits (ds ++ rest.takeWhile Char.isDigit), rest.dropWhile Char.isDigit) := by
  -- the digits come after the sign, so no second sign is taken for one
  have hhead : ∀ c, (ds ++ rest).head? = some c → c ≠ '-' ∧ c ≠ '+' := by
    intro c hc
    obtain ⟨d, ds, rfl⟩ := List.exists_cons_of_ne_nil nonempty
    obtain rfl : d = c := by simpa using hc
    have hd : d.isDigit = true := digits d (by simp)
    exact ⟨fun h => by simp [h] at hd, fun h => by simp [h] at hd⟩
  have hne : ds ++ rest.takeWhile Char.isDigit ≠ [] := by simp [nonempty]
  rw [exponent?_signed mark signed fun _ => hhead, List.takeWhile_append_of_pos digits,
    List.dropWhile_append_of_pos digits, if_neg hne]

/-- A text starts with a point or it does not. -/
theorem exists_fraction (cs : List Char) :
    (∃ r, cs = '.' :: r) ∨ ∀ c, cs.head? = some c → c ≠ '.' := by
  cases cs with
  | nil => exact .inr (by simp)
  | cons c r =>
    by_cases h : c = '.'
    · exact .inl ⟨r, by rw [h]⟩
    · exact .inr (by simpa using h)

/-- What is read of a numeral without a point. -/
theorem number?_whole {w r : List Char} (hw : ∀ c ∈ w, c.isDigit = true)
    (hr : ∀ c, r.head? = some c → c.isDigit = false ∧ c ≠ '.') :
    number? (w ++ r) =
      if w = [] then none
      else some (⟨ofDigits w, ((exponent? r).getD (0, r)).1⟩, ((exponent? r).getD (0, r)).2) := by
  have htake := takeWhile_run hw fun c hc => (hr c hc).1
  have hdrop := dropWhile_run hw fun c hc => (hr c hc).1
  simp only [number?, htake, hdrop]
  -- the text goes on with a point, or with something else
  split
  · next r' => exact absurd rfl (hr '.' rfl).2
  · simp

/-- What is read of a numeral with a point. -/
theorem number?_pointed {w r : List Char} (hw : ∀ c ∈ w, c.isDigit = true) :
    number? (w ++ '.' :: r) =
      if w = [] ∧ r.takeWhile Char.isDigit = [] then none
      else
        let x := (exponent? (r.dropWhile Char.isDigit)).getD (0, r.dropWhile Char.isDigit)
        some (⟨ofDigits (w ++ r.takeWhile Char.isDigit),
          x.1 - (r.takeWhile Char.isDigit).length⟩, x.2) := by
  -- the point ends the digits before it
  have hpoint : ∀ c, ('.' :: r).head? = some c → c.isDigit = false := by
    intro c hc
    obtain rfl : '.' = c := by simpa using hc
    rfl
  have htake := takeWhile_run hw hpoint
  have hdrop := dropWhile_run hw hpoint
  simp only [number?, htake, hdrop]

/-- Where no exponent part can be read, none is there. -/
theorem exists_exponentPart (r : List Char) :
    ∃ x, ExponentPart x ((exponent? r).getD (0, r)).1 ∧
      r = x ++ ((exponent? r).getD (0, r)).2 := by
  cases h : exponent? r with
  -- nothing is read, and the empty part is there in any case
  | none => exact ⟨[], .none, rfl⟩
  | some p => exact exponent?_sound h

/-- What is left after an exponent is no longer than the text. -/
theorem length_exponent?_le (r : List Char) : ((exponent? r).getD (0, r)).2.length ≤ r.length := by
  obtain ⟨x, -, hx⟩ := exists_exponentPart r
  have := congrArg List.length hx
  rw [List.length_append] at this
  omega

/-- Behind a numeral that has ended no exponent is read. -/
theorem exponent?_eq_none {r : List Char} (h : NumeralEnds r) : exponent? r = none := by
  cases r with
  | nil => rfl
  | cons c r =>
    obtain ⟨-, -, he, hE⟩ := h c rfl
    simp [exponent?, he, hE]

/-- What is read of a number is a numeral. -/
theorem number?_sound {cs rest : List Char} {d : Decimal} (h : number? cs = some (d, rest)) :
    ∃ l, Numeral l d ∧ cs = l ++ rest := by
  have hw : ∀ c ∈ cs.takeWhile Char.isDigit, c.isDigit = true :=
    fun c hc => List.mem_takeWhile_imp hc
  have hcs : cs = cs.takeWhile Char.isDigit ++ cs.dropWhile Char.isDigit :=
    List.takeWhile_append_dropWhile.symm
  rcases exists_fraction (cs.dropWhile Char.isDigit) with ⟨r, hr⟩ | hr
  · -- the digits are followed by a point, and then by a fraction
    rw [hr] at hcs
    rw [hcs, number?_pointed hw] at h
    split at h
    · simp at h
    next hne =>
      -- the exponent, if there is one, stands behind the fraction
      obtain ⟨x, hx, hrest⟩ := exists_exponentPart (r.dropWhile Char.isDigit)
      simp only [Option.some.injEq, Prod.mk.injEq] at h
      obtain ⟨rfl, rfl⟩ := h
      refine ⟨_, ⟨_, _, _, x, _, .pointed hw (f := r.takeWhile Char.isDigit)
        (fun c hc => List.mem_takeWhile_imp hc) ?_, hx, rfl, rfl⟩, ?_⟩
      · simpa using hne
      · rw [List.append_assoc, ← hrest, List.append_assoc, List.cons_append,
          List.takeWhile_append_dropWhile]
        exact hcs
  · -- they are not, and the exponent stands right behind them
    have hhead := fun c hc => And.intro (head?_dropWhile_isDigit cs c hc) (hr c hc)
    rw [hcs, number?_whole hw hhead] at h
    split at h
    · simp at h
    next hne =>
      obtain ⟨x, hx, hrest⟩ := exists_exponentPart (cs.dropWhile Char.isDigit)
      simp only [Option.some.injEq, Prod.mk.injEq] at h
      obtain ⟨rfl, rfl⟩ := h
      refine ⟨_, ⟨_, _, 0, x, _, .whole hw hne, hx, rfl, by simp⟩, ?_⟩
      rw [List.append_assoc, ← hrest]
      exact hcs

/-- Where digits start a text, a number is read that takes up all of them. -/
theorem number?_digits {w : List Char} (digits : ∀ c ∈ w, c.isDigit = true) (nonempty : w ≠ [])
    (rest : List Char) :
    ∃ d rest', number? (w ++ rest) = some (d, rest') ∧ rest'.length ≤ rest.length := by
  -- the digits may go on in what follows
  have hw : ∀ c ∈ w ++ rest.takeWhile Char.isDigit, c.isDigit = true := by
    intro c hc
    rcases List.mem_append.1 hc with hc | hc
    · exact digits c hc
    · exact List.mem_takeWhile_imp hc
  have hne : w ++ rest.takeWhile Char.isDigit ≠ [] := by simp [nonempty]
  have hcs : w ++ rest = w ++ rest.takeWhile Char.isDigit ++ rest.dropWhile Char.isDigit := by
    rw [List.append_assoc, List.takeWhile_append_dropWhile]
  have hdrop := length_dropWhile_le Char.isDigit rest
  have hexp := length_exponent?_le (rest.dropWhile Char.isDigit)
  rcases exists_fraction (rest.dropWhile Char.isDigit) with ⟨r, hr⟩ | hr
  · -- a point stands after them, and perhaps a fraction and an exponent
    have hfraction := length_dropWhile_le Char.isDigit r
    have hexponent := length_exponent?_le (r.dropWhile Char.isDigit)
    rw [hr, List.length_cons] at hdrop
    rw [hcs, hr, number?_pointed hw, if_neg fun h => hne h.1]
    exact ⟨_, _, rfl, by omega⟩
  · -- no point: at most an exponent follows
    have hhead := fun c hc => And.intro (head?_dropWhile_isDigit rest c hc) (hr c hc)
    rw [hcs, number?_whole hw hhead, if_neg hne]
    exact ⟨_, _, rfl, by omega⟩

/-- A numeral that ends has no more digits behind it. -/
theorem digits_of_numeralEnds {rest : List Char} (h : NumeralEnds rest) :
    rest.takeWhile Char.isDigit = [] ∧ rest.dropWhile Char.isDigit = rest := by
  have hnone : ∀ c ∈ ([] : List Char), c.isDigit = true := by simp
  exact ⟨takeWhile_run hnone fun c hc => (h c hc).1, dropWhile_run hnone fun c hc => (h c hc).1⟩

/-- A numeral without an exponent is read to its end at least. -/
theorem number?_mantissa {m ds : List Char} {places : Nat} (h : Mantissa m ds places)
    (rest : List Char) :
    (∃ d rest', number? (m ++ rest) = some (d, rest') ∧ rest'.length ≤ rest.length) ∧
      (NumeralEnds rest → number? (m ++ rest) = some (⟨ofDigits ds, 0 - places⟩, rest)) := by
  cases h with
  | whole digits nonempty =>
    -- digits alone: more digits, a point or an exponent may follow
    refine ⟨number?_digits digits nonempty rest, fun h => ?_⟩
    rw [number?_whole digits fun c hc => ⟨(h c hc).1, (h c hc).2.1⟩, if_neg nonempty,
      exponent?_eq_none h]
    simp
  | @pointed w f whole fraction nonempty =>
    -- with a fraction: the point is behind it, and more digits or an exponent may follow
    have hdrop := length_dropWhile_le Char.isDigit rest
    have hexp := length_exponent?_le (rest.dropWhile Char.isDigit)
    rw [List.append_assoc, List.cons_append, number?_pointed whole,
      List.takeWhile_append_of_pos fraction, List.dropWhile_append_of_pos fraction,
      if_neg (fun h => by simp_all)]
    constructor
    · exact ⟨_, _, rfl, by omega⟩
    · intro h
      obtain ⟨htake, hrest⟩ := digits_of_numeralEnds h
      rw [htake, hrest, exponent?_eq_none h]
      simp

/-- With an exponent, the digits of the exponent may go on and nothing else. -/
theorem number?_mantissa_exponent {m ds sign xs : List Char} {places : Nat} {e : Char}
    {negative : Bool} (h : Mantissa m ds places) (mark : e = 'e' ∨ e = 'E')
    (signed : ExponentSign sign negative) (digits : ∀ c ∈ xs, c.isDigit = true)
    (nonempty : xs ≠ []) (rest : List Char) :
    number? (m ++ e :: (sign ++ (xs ++ rest))) =
      some (⟨ofDigits ds, (if negative then -(ofDigits (xs ++ rest.takeWhile Char.isDigit) : Int)
        else ofDigits (xs ++ rest.takeWhile Char.isDigit)) - places⟩,
        rest.dropWhile Char.isDigit) := by
  -- the mark of the exponent ends the digits before it
  have hhead : ∀ c, (e :: (sign ++ (xs ++ rest))).head? = some c → c.isDigit = false ∧ c ≠ '.' := by
    intro c hc
    obtain rfl : e = c := by simpa using hc
    rcases mark with rfl | rfl <;> decide
  have hexponent := exponent?_append rest mark signed digits nonempty
  cases h with
  | whole wdigits wnonempty =>
    rw [number?_whole wdigits hhead, if_neg wnonempty, hexponent]
    simp
  | @pointed w f whole fraction wnonempty =>
    have htake := takeWhile_run fraction fun c hc => (hhead c hc).1
    have hdrop := dropWhile_run fraction fun c hc => (hhead c hc).1
    rw [List.append_assoc, List.cons_append, number?_pointed whole, htake, hdrop,
      if_neg (fun h => by simp_all), hexponent]
    rfl

/-- On a text that starts with a numeral the reader of numbers gets at least as far as the numeral,
and just as far if the numeral ends there. -/
theorem number?_append {l : List Char} {d : Decimal} (h : Numeral l d) (rest : List Char) :
    (∃ d' rest', number? (l ++ rest) = some (d', rest') ∧ rest'.length ≤ rest.length) ∧
      (NumeralEnds rest → number? (l ++ rest) = some (d, rest)) := by
  obtain ⟨m, ds, places, x, e, hm, hx, rfl, rfl⟩ := h
  cases hx with
  | none =>
    rw [List.append_nil]
    exact number?_mantissa hm rest
  | @some e sign xs negative mark signed digits nonempty =>
    have hread := number?_mantissa_exponent hm mark signed digits nonempty rest
    rw [List.append_assoc, List.cons_append, List.append_assoc, hread]
    constructor
    · exact ⟨_, _, rfl, length_dropWhile_le Char.isDigit rest⟩
    · intro h
      obtain ⟨htake, hrest⟩ := digits_of_numeralEnds h
      rw [htake, hrest, List.append_nil]

/-- Nothing cannot prolong a numeral. -/
theorem numeralEnds_nil : NumeralEnds [] := by
  intro c hc
  simp at hc

/-! ### Lexemes -/

/-- **Identifier.** A word, kept or not. -/
def Identifier (l : List Char) : Prop :=
  ∃ c cs, l = c :: cs ∧ isNameStart c = true ∧ ∀ x ∈ cs, isNameRest x = true

/-- **Lexeme.** A way of writing a token. -/
inductive Lexeme : Token → List Char → Prop
  | number {l : List Char} {d : Decimal} (numeral : Numeral l d) : Lexeme (.number d) l
  | name {l : List Char} (identifier : Identifier l)
      (free : ofName (String.ofList l) = .name (String.ofList l)) :
      Lexeme (.name (String.ofList l)) l
  | truth (b : Bool) : Lexeme (.truth b) (if b then "true" else "false").toList
  | op (o : BinOp) : Lexeme (.op o) o.text.toList
  | bang : Lexeme .bang ['!']
  | lparen : Lexeme .lparen ['(']
  | rparen : Lexeme .rparen [')']
  | comma : Lexeme .comma [',']
  | colon : Lexeme .colon [':']
  | arrow : Lexeme .arrow ['-', '>']

/-- The two truth values are written as words. -/
theorem identifier_truth (b : Bool) : Identifier (if b then "true" else "false").toList := by
  cases b with
  | true => exact ⟨'t', ['r', 'u', 'e'], rfl, rfl, List.all_eq_true.1 rfl⟩
  | false => exact ⟨'f', ['a', 'l', 's', 'e'], rfl, rfl, List.all_eq_true.1 rfl⟩

/-- The token of a word is spelled by it. -/
theorem name?_ofName (s : String) : (ofName s).name? = some s := by
  unfold ofName
  split
  · next h => simp [name?, h]
  · split
    · next h => simp [name?, h]
    · rfl

/-- A word is a lexeme of its token. -/
theorem lexeme_ofName {l : List Char} (h : Identifier l) : Lexeme (ofName (String.ofList l)) l := by
  -- two words are kept, and any other one is a name
  by_cases htrue : String.ofList l = "true"
  · have hl : l = "true".toList := by rw [← htrue, String.toList_ofList]
    rw [htrue, hl]
    exact .truth true
  · by_cases hfalse : String.ofList l = "false"
    · have hl : l = "false".toList := by rw [← hfalse, String.toList_ofList]
      rw [hfalse, hl]
      exact .truth false
    · have hname : ofName (String.ofList l) = .name (String.ofList l) := by
        rw [ofName, if_neg htrue, if_neg hfalse]
      rw [hname]
      exact .name h hname

/-- The characters that a lexeme of one or two characters starts with. -/
def punctuation : List Char :=
  ['|', '&', '<', '>', '=', '!', '-', '+', '*', '/', '^', '(', ')', ',', ':']

/-- Whether a character is one of them. -/
def isPunctuation (c : Char) : Bool := c ∈ punctuation

/-- A token of one character is punctuation. -/
theorem isPunctuation_of_single? {c : Char} {t : Token} (h : single? c = some t) :
    isPunctuation c = true := by
  unfold single? at h
  split at h <;> first | rfl | simp at h

/-- So is the first character of a pair. -/
theorem isPunctuation_of_pair? {c d : Char} {t : Token} (h : pair? c d = some t) :
    isPunctuation c = true := by
  unfold pair? at h
  split at h <;> first | rfl | simp at h

/-- What holds of no gap and of `c` keeps `c` from being one. -/
theorem isGap_eq_false {p : Char → Bool} {c : Char} (hspace : p ' ' = false) (htab : p '\t' = false)
    (hc : p c = true) : Text.isGap c = false := by
  rw [Bool.eq_false_iff]
  intro hgap
  -- a gap is a blank or a tab, and of neither does it hold
  simp only [Text.isGap, Bool.or_eq_true, decide_eq_true_eq] at hgap
  rcases hgap with rfl | rfl
  · exact absurd hc (Bool.eq_false_iff.1 hspace)
  · exact absurd hc (Bool.eq_false_iff.1 htab)

/-- Where no gap stands nothing is passed over. -/
theorem skipGaps_cons {c : Char} (h : Text.isGap c = false) (cs : List Char) :
    skipGaps (c :: cs) = c :: cs := by
  rw [skipGaps, List.dropWhile_cons_of_neg]
  rw [h]
  exact Bool.false_ne_true

/-- What holds of no punctuation character and of `c` keeps `c` from being one. -/
theorem not_isPunctuation {p : Char → Bool} {c : Char} (hp : punctuation.all (fun d => !p d) = true)
    (hc : p c = true) : isPunctuation c = false := by
  rw [isPunctuation, decide_eq_false_iff_not]
  intro hmem
  have hfalse := List.all_eq_true.1 hp c hmem
  rw [hc] at hfalse
  exact absurd hfalse (by decide)

/-- A word does not start with punctuation. -/
theorem not_isPunctuation_of_isNameStart {c : Char} (h : isNameStart c = true) :
    isPunctuation c = false := not_isPunctuation rfl h

/-- A digit starts no word. -/
theorem isNameStart_eq_false_of_isDigit {c : Char} (h : c.isDigit = true) :
    isNameStart c = false := by
  rw [Bool.eq_false_iff]
  intro hn
  simp only [isNameStart, Bool.or_eq_true, decide_eq_true_eq] at hn
  rcases hn with hn | rfl
  · -- small letters and digits are two ranges apart
    change (decide (c.val ≥ 97) && decide (c.val ≤ 122)) = true at hn
    change (decide (c.val ≥ 48) && decide (c.val ≤ 57)) = true at h
    simp only [Bool.and_eq_true, decide_eq_true_eq, ge_iff_le, UInt32.le_iff_toNat_le,
      UInt32.reduceToNat] at hn h
    omega
  · exact absurd h (by decide)

/-- A numeral starts with a digit or a point, so neither punctuation nor a word does. -/
theorem exists_head_of_numeral {l : List Char} {d : Decimal} (h : Numeral l d) :
    ∃ c cs, l = c :: cs ∧ isPunctuation c = false ∧ isNameStart c = false ∧
      Text.isGap c = false ∧ (c.isDigit = true ∨ c = '.') := by
  have hdigit : ∀ c : Char, c.isDigit = true → isPunctuation c = false ∧ isNameStart c = false ∧
      Text.isGap c = false ∧ (c.isDigit = true ∨ c = '.') :=
    fun c hc => ⟨not_isPunctuation rfl hc, isNameStart_eq_false_of_isDigit hc,
      isGap_eq_false rfl rfl hc, .inl hc⟩
  obtain ⟨m, ds, places, x, e, hm, -, rfl, -⟩ := h
  cases hm with
  | whole digits nonempty =>
    obtain ⟨c, cs, rfl⟩ := List.exists_cons_of_ne_nil nonempty
    -- the first digit comes first
    exact ⟨c, cs ++ x, rfl, hdigit c (digits c (by simp))⟩
  | @pointed w f whole fraction nonempty =>
    cases w with
    -- without digits before it the point comes first
    | nil => exact ⟨'.', f ++ x, rfl, by decide⟩
    | cons c w => exact ⟨c, w ++ '.' :: f ++ x, rfl, hdigit c (whole c (by simp))⟩

/-- The four shapes of a lexeme. -/
theorem Lexeme.shape {t : Token} {l : List Char} (h : Lexeme t l) :
    (∃ c, l = [c] ∧ single? c = some t) ∨
    (∃ c d, l = [c, d] ∧ pair? c d = some t) ∨
    (Identifier l ∧ t = ofName (String.ofList l)) ∨
    ∃ d, t = .number d ∧ Numeral l d := by
  cases h with
  | number numeral => exact .inr (.inr (.inr ⟨_, rfl, numeral⟩))
  | name identifier free => exact .inr (.inr (.inl ⟨identifier, free.symm⟩))
  | truth b =>
    -- a kept word is the token that its word stands for
    refine .inr (.inr (.inl ⟨identifier_truth b, ?_⟩))
    cases b <;> rfl
  | op o =>
    -- every operator is one character or a pair
    cases o with
    | or => exact .inr (.inl ⟨'|', '|', rfl, rfl⟩)
    | and => exact .inr (.inl ⟨'&', '&', rfl, rfl⟩)
    | lt => exact .inl ⟨'<', rfl, rfl⟩
    | le => exact .inr (.inl ⟨'<', '=', rfl, rfl⟩)
    | gt => exact .inl ⟨'>', rfl, rfl⟩
    | ge => exact .inr (.inl ⟨'>', '=', rfl, rfl⟩)
    | eq => exact .inr (.inl ⟨'=', '=', rfl, rfl⟩)
    | ne => exact .inr (.inl ⟨'!', '=', rfl, rfl⟩)
    | add => exact .inl ⟨'+', rfl, rfl⟩
    | sub => exact .inl ⟨'-', rfl, rfl⟩
    | mul => exact .inl ⟨'*', rfl, rfl⟩
    | div => exact .inl ⟨'/', rfl, rfl⟩
    | pow => exact .inl ⟨'^', rfl, rfl⟩
  | bang => exact .inl ⟨'!', rfl, rfl⟩
  | lparen => exact .inl ⟨'(', rfl, rfl⟩
  | rparen => exact .inl ⟨')', rfl, rfl⟩
  | comma => exact .inl ⟨',', rfl, rfl⟩
  | colon => exact .inl ⟨':', rfl, rfl⟩
  | arrow => exact .inr (.inl ⟨'-', '>', rfl, rfl⟩)

/-- No gap stands at the start of a lexeme. -/
theorem Lexeme.skipGaps_append {t : Token} {l : List Char} (h : Lexeme t l) (rest : List Char) :
    skipGaps (l ++ rest) = l ++ rest := by
  have hstart : ∃ c cs, l = c :: cs ∧ Text.isGap c = false := by
    -- the first character of each shape, none of which is a gap
    rcases h.shape with ⟨c, rfl, hs⟩ | ⟨c, d, rfl, hp⟩ | ⟨⟨c, cs, rfl, hc, -⟩, -⟩ | ⟨d, -, hd⟩
    · exact ⟨c, _, rfl, isGap_eq_false rfl rfl (isPunctuation_of_single? hs)⟩
    · exact ⟨c, _, rfl, isGap_eq_false rfl rfl (isPunctuation_of_pair? hp)⟩
    · exact ⟨c, _, rfl, isGap_eq_false rfl rfl hc⟩
    · obtain ⟨c, cs, rfl, -, -, hgap, -⟩ := exists_head_of_numeral hd
      exact ⟨c, _, rfl, hgap⟩
  obtain ⟨c, cs, rfl, hc⟩ := hstart
  exact skipGaps_cons hc (cs ++ rest)

/-- A character that is no digit, no point and no start of a word starts only the tokens of one or
two characters. -/
theorem Lexeme.punctuation {t : Token} {c : Char} {l : List Char} (h : Lexeme t (c :: l))
    (hword : isNameStart c = false) (hnumber : c.isDigit = false ∧ c ≠ '.') :
    single? c = some t ∨ ∃ d, pair? c d = some t := by
  rcases h.shape with ⟨x, hx, hs⟩ | ⟨x, y, hx, hp⟩ | ⟨⟨x, xs, hx, hstart, -⟩, -⟩ | ⟨d, -, hd⟩
  · obtain ⟨rfl, -⟩ := List.cons.inj hx
    exact .inl hs
  · obtain ⟨rfl, -⟩ := List.cons.inj hx
    exact .inr ⟨y, hp⟩
  · -- a word would start with such a character
    obtain ⟨rfl, -⟩ := List.cons.inj hx
    simp [hword] at hstart
  · -- a numeral would start with a digit or a point
    obtain ⟨x, xs, hx, -, -, -, hdigit⟩ := exists_head_of_numeral hd
    obtain ⟨rfl, -⟩ := List.cons.inj hx
    simp [hnumber] at hdigit

/-- Only one token is written with this sign first. -/
theorem Lexeme.eq_of_equals {t : Token} {l : List Char} (h : Lexeme t ('=' :: l)) : t = .op .eq := by
  rcases h.punctuation (by decide) (by decide) with hs | ⟨d, hp⟩
  · -- the sign by itself is no token
    simp [single?] at hs
  · unfold pair? at hp
    split at hp <;> simp_all

/-- Two tokens are written with this sign first. -/
theorem Lexeme.eq_of_greater {t : Token} {l : List Char} (h : Lexeme t ('>' :: l)) :
    t = .op .gt ∨ t = .op .ge := by
  rcases h.punctuation (by decide) (by decide) with hs | ⟨d, hp⟩
  · exact .inl (Option.some.inj hs).symm
  · unfold pair? at hp
    split at hp <;> simp_all

/-- What follows cannot prolong the lexeme of a token. -/
def Ends (t : Token) (rest : List Char) : Prop :=
  match t with
  | .number _ => NumeralEnds rest
  | .name _ | .truth _ => ∀ c, rest.head? = some c → isNameRest c = false
  | .op .lt | .op .gt | .bang => rest.head? ≠ some '='
  | .op .sub => rest.head? ≠ some '>'
  | _ => True

/-- Nothing prolongs no token. -/
theorem ends_nil (t : Token) : t.Ends [] := by
  cases t with
  | op o => cases o <;> simp [Ends]
  | _ => simp [Ends, numeralEnds_nil]

/-- A word ends where no character follows that may be part of it, kept or not. -/
theorem ends_ofName {s : String} {rest : List Char} :
    (ofName s).Ends rest ↔ ∀ c, rest.head? = some c → isNameRest c = false := by
  unfold ofName
  split
  · exact Iff.rfl
  · split <;> exact Iff.rfl

/-! ### Reading one token -/

section Reading

variable {t : Token} {c : Char} {l cs rest : List Char}

/-- The first character of a pair of which a lexeme is the first character only. -/
theorem pair?_eq_none_of_ends (h : single? c = some t) (hends : t.Ends rest) :
    rest.head?.bind (pair? c) = none := by
  cases rest with
  -- nothing follows, so there is no pair
  | nil => rfl
  | cons d rest =>
    cases hp : pair? c d with
    | none => simp [hp]
    -- a pair is there, so what follows would prolong the lexeme
    | some t' =>
      exfalso
      unfold pair? at hp
      -- of the pairs only `<=`, `>=`, `!=` and `->` start with a token of one character
      split at hp
      · exact absurd (show none = some t from h) (by simp)
      · exact absurd (show none = some t from h) (by simp)
      · obtain rfl : Token.op .lt = t := Option.some.inj h
        exact hends rfl
      · obtain rfl : Token.op .gt = t := Option.some.inj h
        exact hends rfl
      · exact absurd (show none = some t from h) (by simp)
      · obtain rfl : Token.bang = t := Option.some.inj h
        exact hends rfl
      · obtain rfl : Token.op .sub = t := Option.some.inj h
        exact hends rfl
      · simp at hp

/-- A word or a number is read where no punctuation stands. -/
theorem next?_of_not_isPunctuation (hcs : skipGaps cs = c :: rest) (hc : isPunctuation c = false) :
    next? cs = word? (c :: rest) := by
  -- no token of one or two characters starts with it
  have hsingle : single? c = none := by
    rw [Option.eq_none_iff_forall_not_mem]
    intro t ht
    simp [isPunctuation_of_single? ht] at hc
  have hpair : rest.head?.bind (pair? c) = none := by
    rw [Option.bind_eq_none_iff]
    intro d hd
    rw [Option.eq_none_iff_forall_not_mem]
    intro t ht
    simp [isPunctuation_of_pair? ht] at hc
  simp only [next?, hcs, hpair, hsingle]

/-- Of a word all is read that goes on with it. -/
theorem next?_of_identifier (h : Identifier l) (hcs : skipGaps cs = l ++ rest) :
    next? cs = some (ofName (String.ofList (l ++ rest.takeWhile isNameRest)),
      rest.dropWhile isNameRest) := by
  obtain ⟨c, l, rfl, hc, hl⟩ := h
  rw [List.cons_append] at hcs
  rw [next?_of_not_isPunctuation hcs (not_isPunctuation_of_isNameStart hc)]
  simp only [word?, if_pos hc]
  -- the run of the word goes on as far as its characters do
  rw [List.takeWhile_append_of_pos hl, List.dropWhile_append_of_pos hl, List.cons_append]

/-- A word that what follows does not go on with is read as its token. -/
theorem next?_of_identifier_ends (h : Identifier l) (hcs : skipGaps cs = l ++ rest)
    (hends : ∀ c, rest.head? = some c → isNameRest c = false) :
    next? cs = some (ofName (String.ofList l), rest) := by
  -- what follows does not go on with the word, so nothing more is taken
  have h0 : ∀ c ∈ ([] : List Char), isNameRest c = true := by simp
  have htake : rest.takeWhile isNameRest = [] := takeWhile_run h0 hends
  have hdrop : rest.dropWhile isNameRest = rest := dropWhile_run h0 hends
  rw [next?_of_identifier h hcs, htake, hdrop, List.append_nil]

/-- **Longest lexemes.** Where a token has a lexeme, the reader of tokens gets at least as far as it;
if it gets just as far, it has read that token; and it does so if the lexeme ends there. -/
theorem next?_of_lexeme (h : Lexeme t l) (hcs : skipGaps cs = l ++ rest) :
    ∃ t' rest', next? cs = some (t', rest') ∧ rest'.length ≤ rest.length ∧
      (t.Ends rest → t' = t ∧ rest' = rest) := by
  rcases h.shape with ⟨c, rfl, hs⟩ | ⟨c, d, rfl, hp⟩ | ⟨hl, rfl⟩ | ⟨d, rfl, hd⟩
  · -- a single character, which may turn out to be the first of a pair
    simp only [next?, hcs, List.singleton_append]
    cases hb : rest.head?.bind (pair? c) with
    -- no pair: the character is the token
    | none => exact ⟨t, rest, by simp only [hs], Nat.le_refl _, fun _ => ⟨rfl, rfl⟩⟩
    | some t' =>
      -- a pair: the reader gets further, and the lexeme does not end there
      refine ⟨t', rest.tail, rfl, by simp, fun hends => ?_⟩
      rw [pair?_eq_none_of_ends hs hends] at hb
      simp at hb
  · -- a pair is tried first
    refine ⟨t, rest, ?_, Nat.le_refl _, fun _ => ⟨rfl, rfl⟩⟩
    simp [next?, hcs, hp]
  · -- a word, which may go on
    refine ⟨_, _, next?_of_identifier hl hcs, length_dropWhile_le isNameRest rest, fun hends => ?_⟩
    have hnext := next?_of_identifier_ends hl hcs (ends_ofName.1 hends)
    rw [next?_of_identifier hl hcs] at hnext
    simpa using hnext
  · -- a number starts with a character of no other token
    obtain ⟨c, l', rfl, hc, hname, -⟩ := exists_head_of_numeral hd
    have hnext : next? cs = word? (c :: (l' ++ rest)) := next?_of_not_isPunctuation hcs hc
    have hword : word? (c :: (l' ++ rest)) =
        (number? (c :: l' ++ rest)).map fun p => (.number p.1, p.2) := by
      simp [word?, hname]
    obtain ⟨⟨d', rest', hnumber, hlen⟩, hends⟩ := number?_append hd rest
    rw [hnext, hword, hnumber]
    refine ⟨_, _, rfl, hlen, fun h => ?_⟩
    -- if the numeral ends, the reader gets just as far, and has read that number
    rw [hends h] at hnumber
    obtain ⟨rfl, rfl⟩ : d = d' ∧ rest = rest' := by simpa using hnumber
    exact ⟨rfl, rfl⟩

/-- What follows a lexeme of a token that ends there. -/
theorem next?_of_lexeme_ends (h : Lexeme t l) (hcs : skipGaps cs = l ++ rest)
    (hends : t.Ends rest) : next? cs = some (t, rest) := by
  obtain ⟨t', rest', hnext, -, heq⟩ := next?_of_lexeme h hcs
  obtain ⟨rfl, rfl⟩ := heq hends
  exact hnext

/-- Characters are a lexeme of one token only. -/
theorem Lexeme.unique {u : Token} (h : Lexeme t l) (h' : Lexeme u l) : t = u := by
  -- a lexeme starts with no gap, so it can be read as it is
  have hskip : skipGaps l = l ++ [] := by
    have := h.skipGaps_append []
    rwa [List.append_nil] at this ⊢
  have hnext := next?_of_lexeme_ends h hskip (ends_nil t)
  rw [next?_of_lexeme_ends h' hskip (ends_nil u)] at hnext
  exact (Prod.mk.inj (Option.some.inj hnext)).1.symm

/-- A token of one character is written with it. -/
theorem lexeme_of_single? (h : single? c = some t) : Lexeme t [c] := by
  unfold single? at h
  split at h <;> first
    | (obtain rfl := Option.some.inj h; first | exact .op _ | constructor)
    | simp at h

/-- A token of a pair is written with it. -/
theorem lexeme_of_pair? {d : Char} (h : pair? c d = some t) : Lexeme t [c, d] := by
  unfold pair? at h
  split at h <;> first
    | (obtain rfl := Option.some.inj h; first | exact .op _ | constructor)
    | simp at h

/-- What is read is a lexeme of the token. -/
theorem exists_lexeme_of_next? (h : next? cs = some (t, rest)) :
    ∃ l, Lexeme t l ∧ skipGaps cs = l ++ rest := by
  unfold next? at h
  split at h
  · simp at h
  next c r hcs =>
    rw [hcs]
    split at h
    · next t' hpair =>
      obtain ⟨rfl, rfl⟩ : t' = t ∧ r.tail = rest := by simpa using h
      -- the second character of the pair is there, since the pair was looked up with it
      obtain ⟨d, hd, hp⟩ := Option.bind_eq_some_iff.1 hpair
      obtain ⟨r, rfl⟩ := List.head?_eq_some_iff.1 hd
      exact ⟨_, lexeme_of_pair? hp, rfl⟩
    · split at h
      · next t' hsingle =>
        obtain ⟨rfl, rfl⟩ : t' = t ∧ r = rest := by simpa using h
        exact ⟨_, lexeme_of_single? hsingle, rfl⟩
      · -- neither a pair nor a single character: a word or a number
        by_cases hc : isNameStart c = true
        · simp only [word?, if_pos hc, Option.some.injEq, Prod.mk.injEq] at h
          obtain ⟨rfl, rfl⟩ := h
          -- a word is taken as long as it goes on
          refine ⟨_, lexeme_ofName ⟨c, _, rfl, hc, fun x hx => List.mem_takeWhile_imp hx⟩, ?_⟩
          rw [List.cons_append, List.takeWhile_append_dropWhile]
        · simp only [word?, if_neg hc, Option.map_eq_some_iff, Prod.mk.injEq] at h
          obtain ⟨⟨d, r'⟩, hnumber, rfl, rfl⟩ := h
          -- a number is what the reader of numbers has taken
          obtain ⟨l, hl, heq⟩ := number?_sound hnumber
          exact ⟨l, .number hl, heq⟩

end Reading

end Token

end Arbor
