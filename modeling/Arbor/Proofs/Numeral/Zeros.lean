import Arbor.Numeral.Power
import Arbor.Proofs.Numeral.Writing
import Arbor.Proofs.Outcome
import Mathlib

/-!
# The sign of zero

A zero that is written loses its sign, so a number that was written and read again is the same number
up to the sign of zero (`Same`). That sign never shows. Every operation on doubles that expressions
know takes numbers that are the same to numbers that are the same (`Same.add` and so on), comparisons do
not tell them apart, and a power or a quotient fails for both or for none.

All this is read off the model of doubles. What a double unpacks to is a zero just if its rank is zero
(`unpacked_eq_zero_iff`); so two doubles are the same just if what they unpack to is equal or both are
zeros (`Alike`), and each operation takes zeros to what is alike.
-/

namespace Arbor.Numeral

open Float.Model (UnpackedFloat Format)
open Float.Model.UnpackedFloat
open Outcome (Corresponds)

/-! ### Unpacked doubles -/

/-- What a double unpacks to. -/
def unpacked (x : Float) : UnpackedFloat := unpack .binary64 x.toBits.toBitVec

/-- The double of an unpacked one. -/
def packed (u : UnpackedFloat) : Float := .ofModel (.pack u)

/-- Equal, or both zeros. -/
def Alike (u v : UnpackedFloat) : Prop := u = v ∨ ∃ s t, u = .zero s ∧ v = .zero t

/-- **Same.** Equal, or both zeros. -/
def Same (x y : Float) : Prop := x = y ∨ magnitude x = 0 ∧ magnitude y = 0

section Alike

variable {u u' v v' w : UnpackedFloat} {s t : Sign}

theorem Alike.refl (u : UnpackedFloat) : Alike u u := .inl rfl

/-- Two zeros are alike, whatever their signs. -/
theorem alike_zero (s t : Sign) : Alike (.zero s) (.zero t) := .inr ⟨s, t, rfl, rfl⟩

/-- Being alike goes on: between three that are alike either all are equal or the outer two are
zeros. -/
theorem Alike.trans (h : Alike u v) (h' : Alike v w) : Alike u w := by
  rcases h with rfl | ⟨s, t, rfl, rfl⟩
  · exact h'
  · -- the middle one is a zero, so the third is one as well
    rcases h' with rfl | ⟨-, t', -, rfl⟩
    · exact alike_zero s t
    · exact alike_zero s t'

/-- What takes zeros to what is alike takes all that is alike to what is alike. -/
theorem Alike.map {f : UnpackedFloat → UnpackedFloat} (hf : ∀ s t, Alike (f (.zero s)) (f (.zero t)))
    (h : Alike u v) : Alike (f u) (f v) := by
  rcases h with rfl | ⟨s, t, rfl, rfl⟩
  · exact .refl _
  · exact hf s t

/-- The same of an operation with two operands. -/
theorem Alike.map₂ {f : UnpackedFloat → UnpackedFloat → UnpackedFloat}
    (hleft : ∀ s t v, Alike (f (.zero s) v) (f (.zero t) v))
    (hright : ∀ s t u, Alike (f u (.zero s)) (f u (.zero t)))
    (hu : Alike u u') (hv : Alike v v') : Alike (f u v) (f u' v') :=
  -- first the left operand is exchanged, then the right one
  (hu.map (f := (f · v)) fun s t => hleft s t v).trans (hv.map fun s t => hright s t u')

/-- A sum does not show the signs of zeros among what is added, except in the sign of a zero. -/
theorem add_alike (hu : Alike u u') (hv : Alike v v') :
    Alike (add .binary64 u v) (add .binary64 u' v') := by
  -- only two zeros add to a zero by their signs; a zero that is added to anything else is gone
  refine Alike.map₂ (fun s t v => ?_) (fun s t u => ?_) hu hv
  · cases v with
    -- the sum of two zeros is a zero, and of which sign depends on all of them
    | zero r => cases s <;> cases t <;> cases r <;> exact alike_zero _ _
    | notANumber | infinity | finite => exact .refl _
  · cases u with
    | zero r => cases s <;> cases t <;> cases r <;> exact alike_zero _ _
    | notANumber | infinity | finite => exact .refl _

/-- Nor does a difference. -/
theorem sub_alike (hu : Alike u u') (hv : Alike v v') :
    Alike (sub .binary64 u v) (sub .binary64 u' v') := by
  refine Alike.map₂ (fun s t v => ?_) (fun s t u => ?_) hu hv
  · cases v with
    -- as for sums, with the sign of the right zero turned
    | zero r => cases s <;> cases t <;> cases r <;> exact alike_zero _ _
    | notANumber | infinity | finite => exact .refl _
  · cases u with
    | zero r => cases s <;> cases t <;> cases r <;> exact alike_zero _ _
    | notANumber | infinity | finite => exact .refl _

/-- Nor does a product: the sign of a zero operand is at most the sign of a zero product. -/
theorem mul_alike (hu : Alike u u') (hv : Alike v v') :
    Alike (mul .binary64 u v) (mul .binary64 u' v') := by
  refine Alike.map₂ (fun s t v => ?_) (fun s t u => ?_) hu hv
  · cases v with
    -- a product of a zero with what is finite is a zero
    | zero | finite => exact alike_zero _ _
    -- with an infinity, or with no number, it is undefined for both signs
    | notANumber | infinity => exact .refl _
  · cases u with
    | zero | finite => exact alike_zero _ _
    | notANumber | infinity => exact .refl _

/-- A quotient is free of the sign of its numerator only. -/
theorem div_alike (hu : Alike u u') (hv : ∀ s, v ≠ .zero s) :
    Alike (div .binary64 u v) (div .binary64 u' v) := by
  refine hu.map (f := (div .binary64 · v)) fun s t => ?_
  cases v with
  -- between zeros of different signs in the denominator there are the two infinities
  | zero r => exact absurd rfl (hv r)
  | infinity | finite => exact alike_zero _ _
  | notANumber => exact .refl _

/-- Minus turns the signs of zeros only into one another. -/
theorem neg_alike (h : Alike u v) : Alike (neg u) (neg v) :=
  h.map fun s t => alike_zero (-s) (-t)

/-- Comparisons do not see the sign of zero. -/
theorem compare_alike (hu : Alike u u') (hv : Alike v v') : u.compare v = u'.compare v' := by
  have hleft : ∀ s t v, (UnpackedFloat.zero s).compare v = (UnpackedFloat.zero t).compare v := by
    intro s t v
    cases v with
    | notANumber | zero => rfl
    | infinity r | finite r => cases r <;> rfl
  have hright : ∀ s t (u : UnpackedFloat), u.compare (.zero s) = u.compare (.zero t) := by
    intro s t u
    cases u with
    | notANumber | zero => rfl
    | infinity r | finite r => cases r <;> rfl
  -- one operand is exchanged after the other, as the case may be
  rcases hu with rfl | ⟨s, t, rfl, rfl⟩
  · rcases hv with rfl | ⟨s', t', rfl, rfl⟩
    · rfl
    · exact hright s' t' _
  · rcases hv with rfl | ⟨s', t', rfl, rfl⟩
    · exact hleft s t _
    · rfl

end Alike

/-! ### Same doubles -/

/-- A pattern unpacks to a zero just if nothing but its sign is set. -/
theorem unpack_eq_zero_iff (b : BitVec (Format.numBits .binary64)) :
    (∃ s, unpack .binary64 b = .zero s) ↔ b.toNat % signBit = 0 := by
  -- the two fields that are not the sign, as parts of the pattern as a number
  have hexponent := toNat_unpackExponent b
  have hmantissa := toNat_unpackMantissa b
  rw [binade_eq] at hexponent hmantissa
  rw [signBit_eq]
  unfold unpack
  constructor
  · rintro ⟨s, hs⟩
    simp only at hs
    -- all bits of the exponent set: an infinity or no number
    split at hs
    · split at hs <;> cases hs
    split at hs
    · -- no bit of the exponent set: a zero just if no bit of the mantissa is set either
      next he =>
      split at hs
      · next hm =>
        rw [he] at hexponent
        rw [hm] at hmantissa
        simp only [BitVec.toNat_ofNat, Nat.zero_mod] at hexponent hmantissa
        -- both fields are zero, and together they are what is left of the pattern without its sign
        omega
      · cases hs
    · -- any other exponent: a normal number, which has a bit above its mantissa
      cases hs
  · intro h
    -- conversely a pattern of nothing but a sign has both fields zero
    have he : unpackExponent b = 0#_ := by
      apply BitVec.eq_of_toNat_eq
      rw [hexponent]
      change _ = 0
      omega
    have hm : unpackMantissa b = 0#_ := by
      apply BitVec.eq_of_toNat_eq
      rw [hmantissa]
      change _ = 0
      omega
    refine ⟨Sign.ofBitVec (unpackSign b), ?_⟩
    simp [he, hm]

section Same

variable {x x' y y' z : Float}

/-- **Zeros** are the doubles of rank zero. -/
theorem unpacked_eq_zero_iff : (∃ s, unpacked x = .zero s) ↔ magnitude x = 0 :=
  unpack_eq_zero_iff x.toBits.toBitVec

/-- The double of a zero has rank zero. -/
theorem magnitude_packed_zero (s : Sign) : magnitude (packed (.zero s)) = 0 := by
  cases s <;> rfl

theorem Same.refl (x : Float) : Same x x := .inl rfl

theorem Same.symm (h : Same x y) : Same y x := h.imp Eq.symm And.symm

/-- Doubles that are the same unpack to what is alike. -/
theorem Same.alike (h : Same x y) : Alike (unpacked x) (unpacked y) := by
  rcases h with rfl | ⟨hx, hy⟩
  · exact .refl _
  · obtain ⟨s, hs⟩ := unpacked_eq_zero_iff.2 hx
    obtain ⟨t, ht⟩ := unpacked_eq_zero_iff.2 hy
    exact .inr ⟨s, t, hs, ht⟩

/-- What is alike is packed to doubles that are the same. -/
theorem Alike.same {u v : UnpackedFloat} (h : Alike u v) : Same (packed u) (packed v) := by
  rcases h with rfl | ⟨s, t, rfl, rfl⟩
  · exact .refl _
  · exact .inr ⟨magnitude_packed_zero s, magnitude_packed_zero t⟩

/-- **Sums** of numbers that are the same are the same. -/
theorem Same.add (hx : Same x x') (hy : Same y y') : Same (x + y) (x' + y') :=
  (add_alike hx.alike hy.alike).same

theorem Same.sub (hx : Same x x') (hy : Same y y') : Same (x - y) (x' - y') :=
  (sub_alike hx.alike hy.alike).same

theorem Same.mul (hx : Same x x') (hy : Same y y') : Same (x * y) (x' * y') :=
  (mul_alike hx.alike hy.alike).same

theorem Same.neg (h : Same x y) : Same (-x) (-y) := (neg_alike h.alike).same

/-! ### Questions about doubles -/

/-- Equality of doubles, by what they unpack to. -/
theorem beq_iff : (x == y) = true ↔ (unpacked x).compare (unpacked y) = some .eq := by
  have hbeq : (x == y) = ((unpacked x).compare (unpacked y) == some .eq) := rfl
  rw [hbeq, beq_iff_eq]

/-- The doubles that equal zero are the zeros. -/
theorem beq_zero_iff : (x == 0.0) = true ↔ magnitude x = 0 := by
  have hzero : unpacked 0.0 = .zero .positive := rfl
  rw [beq_iff, ← unpacked_eq_zero_iff, hzero]
  cases unpacked x with
  | zero s => exact iff_of_true rfl ⟨s, rfl⟩
  -- what is not a zero compares with it as its sign says, and what is no number does not compare
  | notANumber => simp [UnpackedFloat.compare]
  | infinity s | finite s => cases s <;> simp [UnpackedFloat.compare]

/-- Equality does not see the sign of zero. -/
theorem Same.beq_eq (hx : Same x x') (hy : Same y y') : (x == y) = (x' == y') := by
  rw [Bool.eq_iff_iff, beq_iff, beq_iff, compare_alike hx.alike hy.alike]

/-- The order of doubles, by what they unpack to. -/
theorem lt_iff : x < y ↔ (unpacked x).compare (unpacked y) = some .lt := by
  have hlt : x < y ↔ ((unpacked x).compare (unpacked y) == some .lt) = true := decide_eq_true_iff
  rw [hlt, beq_iff_eq]

theorem le_iff : x ≤ y ↔ ((unpacked x).compare (unpacked y)).any (·.isLE) = true :=
  decide_eq_true_iff

/-- The order does not see the sign of zero. -/
theorem Same.lt_iff (hx : Same x x') (hy : Same y y') : x < y ↔ x' < y' := by
  rw [Numeral.lt_iff, Numeral.lt_iff, compare_alike hx.alike hy.alike]

theorem Same.le_iff (hx : Same x x') (hy : Same y y') : x ≤ y ↔ x' ≤ y' := by
  rw [Numeral.le_iff, Numeral.le_iff, compare_alike hx.alike hy.alike]

/-- What is at least zero is not below zero. -/
theorem not_lt_zero (h : 0.0 ≤ x) : ¬ x < 0.0 := by
  have hzero : unpacked 0.0 = .zero .positive := rfl
  rw [le_iff, hzero] at h
  rw [lt_iff, hzero]
  cases hu : unpacked x with
  -- these do not lie below zero at all
  | notANumber | zero s => simp [UnpackedFloat.compare]
  | infinity s | finite s =>
    cases s with
    -- a negative one is below zero, and then it is not at least zero
    | negative => simp [hu, UnpackedFloat.compare] at h
    | positive => simp [UnpackedFloat.compare]

/-- A double that is a number is finite or an infinity. -/
theorem isFinite_or_isInf (h : x.isNaN = false) : x.isFinite = true ∨ x.isInf = true := by
  have hnan : (unpacked x).isNaN = false := h
  change (unpacked x).isFinite = true ∨ (unpacked x).isInf = true
  cases hu : unpacked x with
  | notANumber => rw [hu] at hnan; cases hnan
  | infinity => exact .inr rfl
  | zero | finite => exact .inl rfl

/-- What is neither undefined nor infinite is finite. -/
theorem isFinite_of_isNaN_of_isInf (hnan : x.isNaN = false) (hinf : x.isInf = false) :
    x.isFinite = true := by
  rcases isFinite_or_isInf hnan with h | h
  · exact h
  · rw [hinf] at h
    cases h

/-- A double that is a number equals itself. -/
theorem beq_self_of_isNaN (h : x.isNaN = false) : (x == x) = true := by
  rcases isFinite_or_isInf h with hfinite | hinf
  · exact beq_self hfinite
  · -- an infinity is compared by its sign
    have hinf : (unpacked x).isInf = true := hinf
    rw [beq_iff]
    cases hu : unpacked x with
    | infinity s => cases s <;> rfl
    | notANumber | zero | finite => rw [hu] at hinf; cases hinf

/-- Numbers that are the same are equal, unless they are undefined. -/
theorem Same.beq (h : Same x y) (hy : y.isNaN = false) : (x == y) = true := by
  -- the first may take the place of the second, which equals itself
  rw [h.beq_eq (.refl y)]
  exact beq_self_of_isNaN hy

/-- Apart from zeros, numbers that are the same are equal. -/
theorem Same.eq_of_ne (h : Same x y) (hne : (y == 0.0) = false) : x = y := by
  rcases h with rfl | ⟨-, hzero⟩
  · rfl
  · rw [beq_zero_iff.2 hzero] at hne
    exact absurd hne (by decide)

/-- A quotient by a number other than zero. -/
theorem Same.div (hx : Same x x') (hy : Same y y') (hne : (y == 0.0) = false) :
    Same (x / y) (x' / y') := by
  -- the denominators are equal, since they are no zeros
  obtain rfl := (hy.symm.eq_of_ne hne).symm
  refine (div_alike hx.alike fun s hs => ?_).same
  rw [beq_zero_iff.2 (unpacked_eq_zero_iff.1 ⟨s, hs⟩)] at hne
  exact absurd hne (by decide)

/-- Zeros are finite. -/
theorem isFinite_of_magnitude_eq_zero (h : magnitude x = 0) : x.isFinite = true := by
  rw [isFinite_iff, h]
  decide

/-- **Powers** of numbers that are the same are the same, and fail alike. -/
theorem Same.power (hx : Same x x') (hy : Same y y') :
    Corresponds Eq Same (Numeral.power x y) (Numeral.power x' y') := by
  -- the three questions that a power asks before it computes have the same answers for both
  have hexponent : (y == 0.0) = (y' == 0.0) := hy.beq_eq (.refl 0.0)
  have hbase : (x == 0.0) = (x' == 0.0) := hx.beq_eq (.refl 0.0)
  have hrefl := Corresponds.refl (P := @Eq PowerFault) (R := Same) (fun _ => rfl) Same.refl
  unfold Numeral.power
  rw [hexponent, hbase]
  split
  · exact hrefl _
  -- from here on the exponents are no zeros, so they are equal
  next hne =>
  obtain rfl := hy.eq_of_ne (Bool.eq_false_iff.2 hne)
  split
  · -- only an odd power of a zero shows its sign
    unfold powerOfZero
    split
    · exact hrefl _
    split
    · exact hrefl _
    · split
      · exact .ok hx
      · exact hrefl _
  -- and here the bases are no zeros either, so nothing is left to differ
  next hbase =>
  obtain rfl := hx.eq_of_ne (Bool.eq_false_iff.2 hbase)
  exact hrefl _

/-! ### The sign of a double -/

/-- Minus a finite number is finite: it has the same rank. -/
theorem isFinite_neg (h : x.isFinite = true) : (-x).isFinite = true := by
  have hrank := isFinite_iff.1 h
  rw [← ofRank_magnitude h, neg_ofRank _ hrank, isFinite_iff, magnitude_ofRank _ hrank]
  exact hrank

/-- Minus is undone by minus, on finite numbers. -/
theorem neg_neg (h : x.isFinite = true) : - -x = x := by
  have hrank := isFinite_iff.1 h
  rw [← ofRank_magnitude h, neg_ofRank _ hrank, neg_ofRank _ hrank, Bool.not_not]

/-- A finite pattern keeps its sign. -/
theorem sign_of_unpack {b : BitVec (Format.numBits .binary64)} {s : Sign} {m : Nat} {e : Int}
    {hm : 0 < m} (h : unpack .binary64 b = .finite s m e hm) : s = .ofBitVec (unpackSign b) := by
  unfold unpack at h
  simp only at h
  -- the first and the second case are those of patterns that are no finite number
  split at h
  · split at h <;> cases h
  split at h
  · split at h
    · cases h
    · -- a number below the normal ones, with the sign of the pattern
      exact (UnpackedFloat.finite.inj h).1.symm
  · exact (UnpackedFloat.finite.inj h).1.symm

/-- The sign of a pattern is minus if its first bit is set. -/
theorem sign_eq_negative_iff (b : BitVec (Format.numBits .binary64)) :
    Sign.ofBitVec (unpackSign b) = .negative ↔ signBit ≤ b.toNat := by
  have hlt : b.toNat < 2 ^ 64 := b.isLt
  have hfield := toNat_unpackSign b
  rw [signBit_eq] at hfield ⊢
  rcases BitVec.eq_zero_or_eq_one (unpackSign b) with hsign | hsign
  · -- a pattern without the first bit lies below it, and one with it does not
    rw [hsign] at hfield ⊢
    change 0 = _ at hfield
    exact iff_of_false (fun h => by cases h) (by omega)
  · rw [hsign] at hfield ⊢
    change 1 = _ at hfield
    exact iff_of_true rfl (by omega)

/-- Whether a finite number other than zero has the sign of minus. -/
theorem isNegative_iff {s : Sign} {m : Nat} {e : Int} {hm : 0 < m}
    (h : unpacked x = .finite s m e hm) : isNegative x = true ↔ s = .negative := by
  rw [isNegative, decide_eq_true_eq, sign_of_unpack h, sign_eq_negative_iff]
  exact Iff.rfl

/-- **Negative numbers** are the finite doubles with the sign of minus that are no zeros. -/
theorem lt_zero_iff (h : x.isFinite = true) : x < 0.0 ↔ isNegative x = true ∧ magnitude x ≠ 0 := by
  have hzero : unpacked 0.0 = .zero .positive := rfl
  have hfinite : (unpacked x).isFinite = true := h
  rw [lt_iff, hzero, Ne, ← unpacked_eq_zero_iff]
  cases hu : unpacked x with
  | notANumber | infinity => simp [hu, UnpackedFloat.isFinite] at hfinite
  -- a zero is not below zero, though it may have the sign of minus
  | zero s => exact iff_of_false (by simp [UnpackedFloat.compare]) fun h => h.2 ⟨s, rfl⟩
  | finite s m e hm =>
    -- any other finite number is below zero just if it has the sign of minus
    rw [isNegative_iff hu]
    cases s with
    | negative => exact iff_of_true rfl ⟨rfl, by simp⟩
    | positive => exact iff_of_false (by simp [UnpackedFloat.compare]) (by simp)

/-! ### Doubles that are numbers -/

/-- Minus makes numbers of numbers. -/
theorem isNaN_neg (h : x.isNaN = false) : (-x).isNaN = false := by
  rcases isFinite_or_isInf h with hfinite | hinf
  · exact isNaN_eq_false (isFinite_neg hfinite)
  · have hinf : (unpacked x).isInf = true := hinf
    change (packed (neg (unpacked x))).isNaN = false
    cases hu : unpacked x with
    | infinity s => cases s <;> rfl
    | notANumber | zero | finite => rw [hu] at hinf; cases hinf

/-- A decimal is read as a number. -/
theorem isNaN_toFloat (d : Decimal) : d.toFloat.isNaN = false := by
  rcases Nat.lt_or_ge d.rank infinityRank with hlt | hge
  · -- below the rank of the infinity the decimal is rounded to a finite number
    refine isNaN_eq_false (isFinite_iff.2 ?_)
    rwa [Decimal.toFloat, magnitude_ofRank false hlt]
  · -- from there on it is rounded to the infinity, which is a number too
    have hinf : d.toFloat = infinity := by
      rw [Decimal.toFloat, infinity, ofRank, ofRank, Nat.min_eq_right hge, Nat.min_self]
    rw [hinf]
    rfl

/-- **A number that is written and read again** is the same number. Only the text of a negative one
starts with a minus, and what stands after that is minus the number. -/
theorem text_numeral (h : x.isFinite = true) :
    ∃ l d, Numeral l d ∧
      (¬ x < 0.0 ∧ (Numeral.text x).toList = l ∧ Same d.toFloat x ∨
        x < 0.0 ∧ (Numeral.text x).toList = '-' :: l ∧ d.toFloat = -x) := by
  have hrank := isFinite_iff.1 h
  have hx := ofRank_magnitude h
  obtain ⟨l, d, hnumeral, hd, htext⟩ := exists_text h
  refine ⟨l, d, hnumeral, ?_⟩
  have hsign := lt_zero_iff h
  rw [htext, hd]
  by_cases hneg : x < 0.0
  · -- the text is a minus and the text of the opposite, which is read as it was written
    refine .inr ⟨hneg, if_pos (hsign.1 hneg), ?_⟩
    rw [(hsign.1 hneg).1] at hx
    have hminus := neg_ofRank true hrank
    rw [hx] at hminus
    exact hminus.symm
  · -- without a minus the text is that of the magnitude, which loses the sign of a zero only
    refine .inl ⟨hneg, if_neg fun hboth => hneg (hsign.2 hboth), ?_⟩
    by_cases h0 : magnitude x = 0
    · rw [h0]
      exact .inr ⟨magnitude_ofRank false (by decide), h0⟩
    · have hpositive : isNegative x = false := by
        rw [Bool.eq_false_iff]
        exact fun hn => hneg (hsign.2 ⟨hn, h0⟩)
      -- the number is not negative and no zero, so its sign is the one that its text is read with
      rw [hpositive] at hx
      exact .inl hx

end Same

end Arbor.Numeral
