import Arbor.Numeral.Binary
import Mathlib

/-!
# Doubles by sign and rank

A finite double is its sign and its rank: `ofRank` puts the two together (`ofRank_magnitude`,
`magnitude_ofRank`), and minus turns the sign and keeps the rank (`neg_ofRank`). Both are facts about
bit patterns. A pattern falls into three fields, and what is made of them keeps apart the field of
the sign from the other two, unless the exponent is the greatest one. So a finite double is a shape
that takes a sign (`Shape`, `exists_shape`), and packing the shape with either sign gives the pattern
with that sign. There are three kinds of finite doubles, zeros, normal ones and those in between, and
each kind has its own shape.
-/

namespace Arbor.Numeral

open Float.Model (UnpackedFloat Format)
open Float.Model.UnpackedFloat

/-! ### The fields of a bit pattern -/

theorem signBit_eq : signBit = 2 ^ 63 := rfl

theorem binade_eq : binade = 2 ^ 52 := rfl

/-- Infinity has the greatest exponent and no mantissa. -/
theorem infinityRank_eq : infinityRank = 2047 * 2 ^ 52 := rfl

section Fields

variable (b : BitVec (Format.numBits .binary64))

/-- The mantissa is in the low bits. -/
theorem toNat_unpackMantissa : (unpackMantissa b).toNat = b.toNat % binade := by
  simp [unpackMantissa, binade]

theorem toNat_unpackExponent : (unpackExponent b).toNat = b.toNat / binade % 2048 := by
  simp [unpackExponent, binade, Nat.shiftRight_eq_div_pow]

theorem toNat_unpackSign : (unpackSign b).toNat = b.toNat / signBit % 2 := by
  simp [unpackSign, signBit, Nat.shiftRight_eq_div_pow]

/-- A bit that is read as a sign gives that bit. -/
theorem toBitVec_ofBitVec (x : BitVec 1) : (Sign.ofBitVec x).toBitVec = x := by
  rcases BitVec.eq_zero_or_eq_one x with rfl | rfl <;> rfl

/-- The pattern of three fields. -/
theorem toNat_packComponents (s : Sign) (e : BitVec 11) (m : BitVec 52) :
    (packComponents .binary64 s e m).toNat =
      s.toBitVec.toNat * signBit + e.toNat * binade + m.toNat := by
  have hm : m.toNat < 2 ^ 52 := m.isLt
  have he : e.toNat < 2 ^ 11 := e.isLt
  simp only [packComponents, BitVec.toNat_append]
  -- the three fields do not overlap
  rw [← Nat.shiftLeft_add_eq_or_of_lt he, ← Nat.shiftLeft_add_eq_or_of_lt hm]
  simp only [Nat.shiftLeft_eq, signBit_eq, binade_eq]
  omega

/-- A pattern is made of its fields. -/
theorem packComponents_unpack :
    packComponents .binary64 (Sign.ofBitVec (unpackSign b)) (unpackExponent b) (unpackMantissa b) =
      b := by
  have hb : b.toNat < 2 ^ 64 := b.isLt
  apply BitVec.eq_of_toNat_eq
  rw [toNat_packComponents, toBitVec_ofBitVec, toNat_unpackSign, toNat_unpackExponent,
    toNat_unpackMantissa, signBit_eq, binade_eq]
  omega

/-- The sign of a negative double, or the other one. -/
def signOf (negative : Bool) : Sign := if negative then .negative else .positive

theorem neg_signOf (negative : Bool) : -signOf negative = signOf !negative := by
  cases negative <;> rfl

/-- The sign is the highest bit, and the rank is what the other fields say. -/
theorem toNat_packComponents_signOf (negative : Bool) (e : BitVec 11) (m : BitVec 52) :
    (packComponents .binary64 (signOf negative) e m).toNat =
      (if negative then signBit else 0) + (e.toNat * binade + m.toNat) := by
  have hminus : Sign.negative.toBitVec.toNat = 1 := rfl
  have hplus : Sign.positive.toBitVec.toNat = 0 := rfl
  rw [toNat_packComponents, Nat.add_assoc, signOf]
  cases negative
  · rw [if_neg Bool.false_ne_true, if_neg Bool.false_ne_true, hplus, Nat.zero_mul]
  · rw [if_pos rfl, if_pos rfl, hminus, Nat.one_mul]

section Rank

variable {negative : Bool} {r : Nat}

/-- The rank is what is left without the sign. -/
theorem mod_signBit (negative : Bool) (hr : r < signBit) :
    ((if negative then signBit else 0) + r) % signBit = r := by
  cases negative
  · rw [if_neg Bool.false_ne_true, Nat.zero_add, Nat.mod_eq_of_lt hr]
  · rw [if_pos rfl, Nat.add_mod_left, Nat.mod_eq_of_lt hr]

/-- The sign of a pattern that has one in front of its rank. -/
theorem ofBitVec_unpackSign (hb : b.toNat = (if negative then signBit else 0) + r)
    (hr : r < signBit) : Sign.ofBitVec (unpackSign b) = signOf negative := by
  have hfield : unpackSign b = if negative then 1#1 else 0#1 := by
    apply BitVec.eq_of_toNat_eq
    rw [toNat_unpackSign, hb]
    cases negative
    · rw [if_neg Bool.false_ne_true, Nat.zero_add, Nat.div_eq_of_lt hr]
      rfl
    · rw [if_pos rfl, Nat.add_div_left r (by decide), Nat.div_eq_of_lt hr]
      rfl
  rw [hfield]
  cases negative <;> rfl

end Rank

/-- The greatest exponent is that of infinity and of no finite pattern. -/
theorem unpackExponent_ne (h : b.toNat % signBit < infinityRank) : unpackExponent b ≠ -1#_ := by
  intro he
  have hnat := congrArg BitVec.toNat he
  rw [toNat_unpackExponent] at hnat
  -- a rank below that of infinity leaves the exponent below all ones
  rw [signBit_eq, infinityRank_eq] at h
  rw [binade_eq] at hnat
  have hmax : ((-1#11 : BitVec 11)).toNat = 2047 := rfl
  rw [hmax] at hnat
  omega

/-- A pattern with a smaller exponent has a rank below infinity's. -/
theorem lt_infinityRank (h : unpackExponent b ≠ -1#_) : b.toNat % signBit < infinityRank := by
  by_cases hlt : b.toNat % signBit < infinityRank
  · exact hlt
  · refine absurd (BitVec.eq_of_toNat_eq ?_) h
    have hmax : ((-1#11 : BitVec 11)).toNat = 2047 := rfl
    rw [toNat_unpackExponent, binade_eq]
    rw [signBit_eq, infinityRank_eq] at hlt
    -- all ones in the exponent is the greatest number of eleven bits
    change b.toNat / 2 ^ 52 % 2048 = 2047
    omega

/-! ### Finite patterns -/

/-- A normal double has a bit in front of its mantissa field. -/
theorem toNat_fullMantissa (v : BitVec 52) : (1#1 ++ v).toNat = 2 ^ 52 + v.toNat := by
  rw [BitVec.toNat_append, ← Nat.shiftLeft_add_eq_or_of_lt v.isLt]
  rfl

/-- Its leading bit is at position 52. -/
theorem log2_fullMantissa (v : BitVec 52) : (1#1 ++ v).toNat.log2 = 52 := by
  have hv : v.toNat < 2 ^ 52 := v.isLt
  have hpos : (1#1 ++ v).toNat ≠ 0 := by
    rw [toNat_fullMantissa]
    omega
  rw [Nat.log2_eq_iff hpos, toNat_fullMantissa]
  omega

/-- A finite value compares as equal to itself, whatever its sign. -/
theorem compare_finite (s : Sign) (m : Nat) (e : Int) (hm : 0 < m) :
    (UnpackedFloat.finite s m e hm).compare (.finite s m e hm) = some .eq := by
  cases s <;> simp [UnpackedFloat.compare]

/-- **Shapes.** What the pattern unpacks to, but for the sign, which may be chosen. With the sign of the
pattern it is the value of the pattern, and with either sign it is packed with the fields of the
pattern. -/
structure Shape (shape : Sign → UnpackedFloat) : Prop where
  unpacked : unpack .binary64 b = shape (Sign.ofBitVec (unpackSign b))
  neg : ∀ s, (shape s).neg = shape (-s)
  packed : ∀ s, pack .binary64 (shape s) =
    packComponents .binary64 s (unpackExponent b) (unpackMantissa b)
  isFinite : ∀ s, (shape s).isFinite = true
  compare : ∀ s, (shape s).compare (shape s) = some .eq

variable {b}

/-- The pattern of a zero. -/
theorem shape_zero (he : unpackExponent b = 0#_) (hm : unpackMantissa b = 0#_) :
    Shape b fun s => .zero s where
  unpacked := by simp [unpack, he, hm]
  neg _ := rfl
  packed s := by
    rw [he, hm]
    rfl
  isFinite _ := rfl
  compare _ := rfl

/-- The pattern of a double below the least normal one. -/
theorem shape_subnormal (he : unpackExponent b = 0#_) (hm : unpackMantissa b ≠ 0#_)
    (hpos : 0 < (unpackMantissa b).toNat) :
    Shape b fun s => .finite s (unpackMantissa b).toNat (-1074) hpos where
  unpacked := by simp [unpack, he, hm, Format.exponentBias]
  neg _ := rfl
  packed s := by
    -- the mantissa is too short to have the leading bit of a normal double
    have hlog : ¬ (unpackMantissa b).toNat.log2 + 1 = Format.mantissaBits .binary64 := by
      have hshort := (Nat.log2_lt (Nat.pos_iff_ne_zero.1 hpos)).2 (unpackMantissa b).isLt
      simp only [Format.mantissaBits] at hshort ⊢
      omega
    simp only [pack]
    rw [if_neg (by decide), if_neg hlog, he]
    simp
  isFinite _ := rfl
  compare s := compare_finite s _ _ hpos

/-- The pattern of a normal double. -/
theorem shape_normal (hmax : unpackExponent b ≠ -1#_) (he : unpackExponent b ≠ 0#_)
    (hpos : 0 < (1#1 ++ unpackMantissa b).toNat) :
    Shape b fun s =>
      .finite s (1#1 ++ unpackMantissa b).toNat ((unpackExponent b).toNat - 1075) hpos where
  unpacked := by
    have hmax' : unpackExponent b ≠ 2047#11 := hmax
    simp [unpack, hmax', he, Format.exponentBias]
  neg _ := rfl
  packed s := by
    have hlt : (unpackExponent b).toNat < 2048 := (unpackExponent b).isLt
    have hne : (unpackExponent b).toNat ≠ 2047 := fun heq => hmax (BitVec.eq_of_toNat_eq heq)
    have hbiased : ((unpackExponent b).toNat - 1075 + (Format.exponentBias .binary64 : Int) +
        (Format.mantissaBitsWithoutImplicit .binary64 : Int)).toNat = (unpackExponent b).toNat := by
      have hbias : (Format.exponentBias .binary64 : Int) = 1023 := rfl
      rw [hbias]
      change (((unpackExponent b).toNat : Int) - 1075 + 1023 + 52).toNat = _
      omega
    have hlog : (1#1 ++ unpackMantissa b).toNat.log2 + 1 = Format.mantissaBits .binary64 := by
      rw [log2_fullMantissa]
      rfl
    have hexponent : BitVec.ofNat 11 (unpackExponent b).toNat = unpackExponent b := by
      rw [BitVec.ofNat_toNat, BitVec.setWidth_eq]
    -- what is stored of the mantissa is all but its leading bit
    have hmantissa : BitVec.ofNat 52 (1#1 ++ unpackMantissa b).toNat = unpackMantissa b := by
      apply BitVec.eq_of_toNat_eq
      rw [BitVec.toNat_ofNat, toNat_fullMantissa, Nat.add_mod_left]
      exact Nat.mod_eq_of_lt (unpackMantissa b).isLt
    simp only [pack]
    rw [hbiased, if_neg, if_pos hlog, hexponent, hmantissa]
    change ¬ 2048 ≤ (unpackExponent b).toNat + 1
    omega
  isFinite _ := rfl
  compare s := compare_finite s _ _ hpos

variable (b)

/-- Finite patterns have a shape. -/
theorem exists_shape (h : unpackExponent b ≠ -1#_) : ∃ shape, Shape b shape := by
  by_cases he : unpackExponent b = 0#_
  · by_cases hm : unpackMantissa b = 0#_
    · exact ⟨_, shape_zero he hm⟩
    · have hpos : 0 < (unpackMantissa b).toNat := by
        simpa [BitVec.toNat_pos, BitVec.pos_iff_ne_zero] using hm
      exact ⟨_, shape_subnormal he hm hpos⟩
  · have hpos : 0 < (1#1 ++ unpackMantissa b).toNat := by
      rw [toNat_fullMantissa]
      omega
    exact ⟨_, shape_normal h he hpos⟩

end Fields

/-! ### Doubles -/

/-- A double is determined by its bits. -/
theorem toBits_inj {x y : Float} (h : x.toBits = y.toBits) : x = y := by
  obtain ⟨⟨b, hb⟩⟩ := x
  obtain ⟨⟨c, hc⟩⟩ := y
  obtain rfl : b = c := h
  rfl

/-- The double of a finite pattern has these bits. -/
theorem toBits_ofBits {b : UInt64} (h : b.toNat % signBit < infinityRank) :
    (Float.ofBits b).toBits = b := by
  obtain ⟨shape, hshape⟩ := exists_shape b.toBitVec (unpackExponent_ne _ h)
  have hbits : (Float.ofBits b).toBits.toBitVec = pack .binary64 (unpack .binary64 b.toBitVec) := rfl
  rw [hshape.unpacked, hshape.packed, packComponents_unpack] at hbits
  exact UInt64.toBitVec_inj.1 hbits

section Finite

variable {x : Float} {r : Nat}

/-- **Finite doubles** are those of a rank below infinity's. -/
theorem isFinite_iff : x.isFinite = true ↔ magnitude x < infinityRank := by
  have hunpack : x.isFinite = (unpack .binary64 x.toBits.toBitVec).isFinite := rfl
  rw [hunpack]
  constructor
  · intro h
    refine lt_infinityRank x.toBits.toBitVec fun he => ?_
    -- both values with the greatest exponent are not finite
    rw [unpack] at h
    simp only [he, if_true] at h
    split at h <;> simp [UnpackedFloat.isFinite] at h
  · intro h
    obtain ⟨shape, hshape⟩ := exists_shape x.toBits.toBitVec (unpackExponent_ne _ h)
    rw [hshape.unpacked]
    exact hshape.isFinite _

/-- Finite doubles are numbers. -/
theorem isNaN_eq_false (h : x.isFinite = true) : x.isNaN = false := by
  have hfinite : (unpack .binary64 x.toBits.toBitVec).isFinite = true := h
  change (unpack .binary64 x.toBits.toBitVec).isNaN = false
  cases hu : unpack .binary64 x.toBits.toBitVec <;> rw [hu] at hfinite <;>
    first | rfl | simp [UnpackedFloat.isFinite] at hfinite

/-- Finite doubles are not infinite. -/
theorem isInf_eq_false (h : x.isFinite = true) : x.isInf = false := by
  have hfinite : (unpack .binary64 x.toBits.toBitVec).isFinite = true := h
  change (unpack .binary64 x.toBits.toBitVec).isInf = false
  cases hu : unpack .binary64 x.toBits.toBitVec <;> rw [hu] at hfinite <;>
    first | rfl | simp [UnpackedFloat.isFinite] at hfinite

/-- A bit pattern is the sign and the rank together. -/
theorem toNat_toBits (x : Float) :
    x.toBits.toNat = (if isNegative x then signBit else 0) + magnitude x := by
  have hlt : x.toBits.toNat < 2 ^ 64 := x.toBits.toNat_lt
  by_cases hneg : signBit ≤ x.toBits.toNat
  · have hnegative : isNegative x = true := by simpa [isNegative] using hneg
    rw [hnegative, if_pos rfl, magnitude]
    rw [signBit_eq] at hneg ⊢
    omega
  · have hnegative : isNegative x = false := by simpa [isNegative] using hneg
    rw [hnegative, if_neg (by decide), magnitude]
    rw [signBit_eq] at hneg ⊢
    omega

/-- The bits of a sign and a rank. -/
theorem toNat_toBits_ofRank (negative : Bool) (h : r < infinityRank) :
    (ofRank negative r).toBits.toNat = (if negative then signBit else 0) + r := by
  have hmin : min r infinityRank = r := Nat.min_eq_left (Nat.le_of_lt h)
  -- sign and rank are not too much for sixty-four bits
  have hnat : (UInt64.ofNat ((if negative then signBit else 0) + r)).toNat =
      (if negative then signBit else 0) + r := by
    rw [UInt64.toNat_ofNat', Nat.mod_eq_of_lt]
    rw [infinityRank_eq] at h
    rw [signBit_eq]
    split <;> omega
  have hmod := mod_signBit negative (Nat.lt_trans h (by decide : infinityRank < signBit))
  rw [ofRank, hmin, toBits_ofBits, hnat]
  rw [hnat, hmod]
  exact h

/-- The rank of the double is the rank that it is made from. -/
theorem magnitude_ofRank (negative : Bool) (h : r < infinityRank) :
    magnitude (ofRank negative r) = r := by
  rw [magnitude, toNat_toBits_ofRank negative h]
  exact mod_signBit negative (Nat.lt_trans h (by decide))

/-- **A finite double is its sign and its rank.** -/
theorem ofRank_magnitude (h : x.isFinite = true) : ofRank (isNegative x) (magnitude x) = x := by
  apply toBits_inj
  apply UInt64.toNat_inj.1
  rw [toNat_toBits_ofRank _ (isFinite_iff.1 h), toNat_toBits x]

/-- **Minus** turns the sign. -/
theorem neg_ofRank (negative : Bool) (h : r < infinityRank) :
    -(ofRank negative r) = ofRank (!negative) r := by
  have hr : r < signBit := Nat.lt_trans h (by decide)
  obtain ⟨b, hb, hnat⟩ : ∃ b : BitVec (Format.numBits .binary64),
      b = (ofRank negative r).toBits.toBitVec ∧ b.toNat = (if negative then signBit else 0) + r :=
    ⟨_, rfl, toNat_toBits_ofRank negative h⟩
  have hrank : b.toNat % signBit = r := by
    rw [hnat]
    exact mod_signBit negative hr
  have hsign := ofBitVec_unpackSign b hnat hr
  obtain ⟨shape, hshape⟩ := exists_shape b (unpackExponent_ne b (by rwa [hrank]))
  have hresult : (-(ofRank negative r)).toBits.toBitVec =
      packComponents .binary64 (signOf !negative) (unpackExponent b) (unpackMantissa b) := by
    change pack .binary64 (unpack .binary64 (ofRank negative r).toBits.toBitVec).neg = _
    rw [← hb, hshape.unpacked, hshape.neg, hshape.packed, hsign, neg_signOf]
  -- the fields without the sign are those of the rank, on both sides
  have hfields := toNat_packComponents_signOf negative (unpackExponent b) (unpackMantissa b)
  rw [← hsign, packComponents_unpack, hnat] at hfields
  apply toBits_inj
  apply UInt64.toNat_inj.1
  rw [toNat_toBits_ofRank _ h]
  change (-(ofRank negative r)).toBits.toBitVec.toNat = _
  rw [hresult, toNat_packComponents_signOf, Nat.add_left_cancel hfields]

/-- A finite double equals itself. -/
theorem beq_self (h : x.isFinite = true) : (x == x) = true := by
  obtain ⟨shape, hshape⟩ :=
    exists_shape x.toBits.toBitVec (unpackExponent_ne _ (isFinite_iff.1 h))
  change ((unpack .binary64 x.toBits.toBitVec).compare (unpack .binary64 x.toBits.toBitVec) ==
    some .eq) = true
  rw [hshape.unpacked, hshape.compare]
  rfl

end Finite

end Arbor.Numeral
