import Arbor.Numeral.Layout
import Arbor.Proofs.Expr.Lexeme
import Arbor.Proofs.Numeral.Reading

/-!
# Written doubles are numerals

Whatever layout is used, what is written for a decimal is a numeral of the same value
(`decimalText_numeral`). In three of the four layouts the digits before the exponent are those of
the coefficient, with a point somewhere between them or with zeros in front, and the places after the
point give the exponent back. A positional whole number has lost its exponent to zeros after the
digits; it is another decimal, but one of the same value.

So a finite double is written as a numeral of its magnitude, after a minus if it is negative
(`exists_text`). Only zero is written without its sign.
-/

namespace Arbor.Numeral

/-! ### Digits -/

/-- Digits are read as the library reads them. -/
theorem ofDigits_eq (ds : List Char) : ofDigits ds = Nat.ofDigitChars 10 ds 0 :=
  Nat.ofDigitChars_eq_foldl.symm

/-- The digits before others count for their powers of ten. -/
theorem ofDigits_append (ds es : List Char) :
    ofDigits (ds ++ es) = 10 ^ es.length * ofDigits ds + ofDigits es := by
  rw [ofDigits_eq, ofDigits_eq, ofDigits_eq, Nat.ofDigitChars_append,
    Nat.ofDigitChars_eq_ofDigitChars_zero]

theorem ofDigits_replicate (n : Nat) : ofDigits (List.replicate n '0') = 0 := by
  rw [ofDigits_eq, Nat.ofDigitChars_replicate_zero, Nat.mul_zero]

/-- Zeros in front of digits change nothing. -/
theorem ofDigits_zeros (n : Nat) (ds : List Char) :
    ofDigits (List.replicate n '0' ++ ds) = ofDigits ds := by
  rw [ofDigits_append, ofDigits_replicate, Nat.mul_zero, Nat.zero_add]

theorem ofDigits_digits (n : Nat) : ofDigits (digits n) = n := by
  rw [ofDigits_eq, digits, Nat.ofDigitChars_ten_toDigits]

theorem digits_ne_nil (n : Nat) : digits n ≠ [] := Nat.toDigits_ne_nil

theorem isDigit_of_mem_digits {n : Nat} {c : Char} (h : c ∈ digits n) : c.isDigit = true :=
  Nat.isDigit_of_mem_toDigits (by omega) (by omega) h

/-- Zeros are digits. -/
theorem isDigit_of_mem_zeros {n : Nat} {c : Char} (h : c ∈ List.replicate n '0') :
    c.isDigit = true := by
  rw [List.eq_of_mem_replicate h]
  rfl

/-! ### The layouts of a decimal -/

section Layouts

variable (c : Nat) {w f x : List Char} {e : Int}

/-- Digits with zeros after them: the exponent has gone into the coefficient. -/
theorem numeral_whole (n : Nat) :
    Numeral (digits c ++ List.replicate n '0') ⟨c * 10 ^ n, 0⟩ := by
  have hvalue : ofDigits (digits c ++ List.replicate n '0') = c * 10 ^ n := by
    rw [ofDigits_append, ofDigits_digits, ofDigits_replicate, List.length_replicate, Nat.mul_comm,
      Nat.add_zero]
  rw [← hvalue]
  refine ⟨_, _, 0, [], 0, .whole ?_ ?_, .none, (List.append_nil _).symm, rfl⟩
  · intro a ha
    rcases List.mem_append.1 ha with ha | ha
    · exact isDigit_of_mem_digits ha
    · exact isDigit_of_mem_zeros ha
  · exact List.append_ne_nil_of_left_ne_nil (digits_ne_nil c) _

/-- Digits with a point after the first `n` of them, and what follows. -/
theorem numeral_split (n : Nat) (hx : ExponentPart x e) :
    Numeral (((digits c).take n ++ '.' :: (digits c).drop n) ++ x)
      ⟨c, e - ((digits c).length - n : Nat)⟩ := by
  have hall : (digits c).take n ++ (digits c).drop n = digits c := List.take_append_drop n (digits c)
  have hne : (digits c).take n ++ (digits c).drop n ≠ [] := by
    rw [hall]
    exact digits_ne_nil c
  refine ⟨_, _, _, x, e, .pointed ?_ ?_ hne, hx, rfl, ?_⟩
  · intro a ha
    exact isDigit_of_mem_digits (List.mem_of_mem_take ha)
  · intro a ha
    exact isDigit_of_mem_digits (List.mem_of_mem_drop ha)
  · rw [hall, ofDigits_digits, List.length_drop]

/-- A zero, a point, `n` zeros more and the digits. -/
theorem numeral_zeros (n : Nat) :
    Numeral ('0' :: '.' :: List.replicate n '0' ++ digits c) ⟨c, -(n + (digits c).length : Nat)⟩ := by
  have hvalue : ofDigits (['0'] ++ (List.replicate n '0' ++ digits c)) = c := by
    rw [← List.append_assoc, ← List.replicate_one, List.replicate_append_replicate, ofDigits_zeros,
      ofDigits_digits]
  refine ⟨_, _, _, [], 0, .pointed (w := ['0']) (f := List.replicate n '0' ++ digits c) ?_ ?_ ?_,
    .none, (List.append_nil _).symm, ?_⟩
  · intro a ha
    exact isDigit_of_mem_zeros (n := 1) ha
  · intro a ha
    rcases List.mem_append.1 ha with ha | ha
    · exact isDigit_of_mem_zeros ha
    · exact isDigit_of_mem_digits ha
  · exact List.cons_ne_nil _ _
  · rw [hvalue, List.length_append, List.length_replicate, Int.zero_sub]

/-- The digits of a decimal of one digit and what follows. -/
theorem numeral_single (hone : (digits c).length = 1) (hx : ExponentPart x e) :
    Numeral ((digits c).take 1 ++ x) ⟨c, e⟩ := by
  have htake : (digits c).take 1 = digits c := List.take_of_length_le (Nat.le_of_eq hone)
  refine ⟨_, _, 0, x, e, .whole (fun a ha => isDigit_of_mem_digits ha) (digits_ne_nil c), hx, ?_, ?_⟩
  · rw [htake]
  · rw [ofDigits_digits]
    exact congrArg _ (Int.sub_zero e).symm

/-- The digits of an exponent, filled up with zeros, after a sign. -/
theorem exponentPart_padded {sign : List Char} {negative : Bool} (hsign : ExponentSign sign negative)
    (width n : Nat) :
    ExponentPart ('e' :: (sign ++ (padded width n).toList)) (if negative then -(n : Int) else n) := by
  have htext : (padded width n).toList =
      List.replicate (width - (digits n).length) '0' ++ digits n := String.toList_ofList
  have hvalue : ofDigits (padded width n).toList = n := by
    rw [htext, ofDigits_zeros, ofDigits_digits]
  have hdigits : ∀ a ∈ (padded width n).toList, a.isDigit = true := by
    intro a ha
    -- the digits are those of the number, behind the zeros that pad them
    rw [htext] at ha
    rcases List.mem_append.1 ha with ha | ha
    · exact isDigit_of_mem_zeros ha
    · exact isDigit_of_mem_digits ha
  have hne : (padded width n).toList ≠ [] := by
    rw [htext]
    exact List.append_ne_nil_of_right_ne_nil _ (digits_ne_nil n)
  have hpart := ExponentPart.some (.inl rfl) hsign hdigits hne
  rw [hvalue] at hpart
  exact hpart

/-- The exponent part that a layout writes. -/
theorem exponentText_part (l : Layout) (e : Int) : ExponentPart (l.exponentText e).toList e := by
  unfold Layout.exponentText
  rw [String.toList_append, String.toList_append]
  by_cases he : e < 0
  · have hpart := exponentPart_padded .minus l.exponentWidth e.natAbs
    have hvalue : (if true then -(e.natAbs : Int) else e.natAbs) = e := by
      rw [if_pos rfl]
      omega
    rw [hvalue] at hpart
    rw [if_pos he]
    exact hpart
  · have hpart := exponentPart_padded .plus l.exponentWidth e.natAbs
    have hvalue : (if false then -(e.natAbs : Int) else e.natAbs) = e := by
      rw [if_neg Bool.false_ne_true]
      omega
    rw [hvalue] at hpart
    rw [if_neg he]
    exact hpart

/-- **A written decimal is a numeral** of the same value. -/
theorem decimalText_numeral {l : Layout} (hmark : l.wholeMark = "") (d : Decimal) :
    ∃ d', Numeral (l.decimalText d).toList d' ∧ d'.toFloat = d.toFloat := by
  obtain ⟨c, e⟩ := d
  have hlen : 0 < (digits c).length := List.length_pos_iff.2 (digits_ne_nil c)
  simp only [Layout.decimalText]
  split
  · split
    · -- a whole number
      next he =>
      refine ⟨⟨c * 10 ^ e.toNat, 0⟩, ?_, ?_⟩
      · rw [hmark, String.append_empty, String.toList_ofList]
        exact numeral_whole c e.toNat
      · rw [Decimal.toFloat_scale, Int.zero_add, Int.toNat_of_nonneg he]
    split
    · -- a point between the digits
      next he hp =>
      have hplaces : 0 - (((digits c).length - ((e + (digits c).length - 1).toNat + 1) : Nat) : Int)
          = e := by omega
      have h := numeral_split c ((e + (digits c).length - 1).toNat + 1) .none
      rw [hplaces, List.append_nil] at h
      rw [String.toList_ofList]
      exact ⟨_, h, rfl⟩
    · -- a point and zeros before the digits
      next he hp =>
      have hplaces : -(((-(e + (digits c).length - 1)).toNat - 1 + (digits c).length : Nat) : Int) =
          e := by omega
      have h := numeral_zeros c ((-(e + (digits c).length - 1)).toNat - 1)
      rw [hplaces] at h
      rw [String.toList_ofList]
      exact ⟨_, h, rfl⟩
  · rw [String.toList_append, String.toList_ofList]
    have hpart := exponentText_part l (e + (digits c).length - 1)
    split
    · -- one digit and an exponent
      next hone =>
      have h := numeral_single c hone hpart
      have hplace : e + (digits c).length - 1 = e := by omega
      rw [hplace] at h ⊢
      rw [List.append_nil]
      exact ⟨_, h, rfl⟩
    · -- a point after the first digit and an exponent
      next hmore =>
      have h := numeral_split c 1 hpart
      have hplace : e + (digits c).length - 1 - ((digits c).length - 1 : Nat) = e := by omega
      rw [hplace] at h
      exact ⟨_, h, rfl⟩

end Layouts

/-! ### The text of a double -/

section Text

variable {x : Float}

/-- Zero is written without a sign. -/
theorem text_zero (h : x.isFinite = true) (h0 : magnitude x = 0) : text x = "0" := by
  unfold text Layout.text
  rw [isNaN_eq_false h, isInf_eq_false h, if_neg Bool.false_ne_true]
  exact if_pos h0

/-- What is not zero is written as its sign and the shortest numeral of its rank. -/
theorem text_of_ne_zero (h : x.isFinite = true) (h0 : magnitude x ≠ 0) :
    (text x).toList = (if isNegative x then ['-'] else []) ++
      (Layout.short.decimalText (shortest (magnitude x))).toList := by
  unfold text Layout.text
  rw [isNaN_eq_false h, isInf_eq_false h, if_neg Bool.false_ne_true]
  change (if magnitude x = 0 then _ else (if isNegative x = true then "-" else "") ++ _).toList = _
  rw [if_neg h0, String.toList_append]
  cases isNegative x <;> rfl

/-- **The text of a finite double** is a numeral of its magnitude, after a minus if the double is
negative. Zero has no sign. -/
theorem exists_text (h : x.isFinite = true) :
    ∃ l d, Numeral l d ∧ d.toFloat = ofRank false (magnitude x) ∧
      (text x).toList = if isNegative x = true ∧ magnitude x ≠ 0 then '-' :: l else l := by
  by_cases h0 : magnitude x = 0
  · -- zero of either sign is written with one digit
    have hnumeral := numeral_whole 0 0
    rw [List.replicate_zero, List.append_nil] at hnumeral
    refine ⟨digits 0, _, hnumeral, ?_, ?_⟩
    · rw [h0]
      rfl
    · rw [text_zero h h0, if_neg fun hneg => hneg.2 h0]
      rfl
  · obtain ⟨d, hnumeral, hd⟩ := decimalText_numeral (l := .short) rfl (shortest (magnitude x))
    rw [shortest_toFloat] at hd
    refine ⟨_, d, hnumeral, hd, ?_⟩
    rw [text_of_ne_zero h h0]
    by_cases hneg : isNegative x = true
    · rw [if_pos hneg, if_pos ⟨hneg, h0⟩]
      rfl
    · rw [if_neg hneg, if_neg fun hboth => hneg hboth.1, List.nil_append]

end Text

end Arbor.Numeral
