import Arbor.Proofs.Numeral.Product
import Arbor.Proofs.Numeral.Zeros
import Mathlib

/-!
# The order of doubles

The doubles that are numbers stand in a row from minus infinity to infinity, and their order is that of
their places in the row (`lt_iff_signedRank`, `le_iff_signedRank`). The place of a double is its rank
with its sign (`signedRank`, `natAbs_signedRank`), so that both zeros have one place.

What a double unpacks to is compared by exponents first and mantissas after them. That this is the
order of ranks needs the form that the two have in a double (`Canonical`): an exponent that is not the
least one has a mantissa of full length. What has that form is packed as itself, or as infinity where
its exponent is too great (`unpacked_packed_finite`).

The numbers from zero on are those with the sign of plus and the zeros (`nonneg_iff`). Their sums are
such numbers again (`nonneg_add`), whatever is rounded on the way.
-/

namespace Arbor.Numeral

open Float.Model (UnpackedFloat Format)
open Float.Model.UnpackedFloat

/-! ### Canonical mantissas and exponents -/

/-- **Canonical.** A mantissa and an exponent of the form that they have in a double, up to doubles
with greater exponents than there are. -/
structure Canonical (m : Nat) (e : Int) : Prop where
  length : m < 2 ^ 53
  least : -1074 ≤ e
  full : e ≠ -1074 → 2 ^ 52 ≤ m

/-- The rank of a mantissa and an exponent. -/
def rankAt (m : Nat) (e : Int) : Nat := (e + 1074).toNat * binade + m

section Canonical

variable {m m' : Nat} {e e' : Int}

/-- A greater exponent makes up for any mantissa. -/
theorem Canonical.rankAt_lt (h : Canonical m e) (h' : Canonical m' e') (he : e < e') :
    rankAt m e < rankAt m' e' := by
  have hm := h.length
  have hleast := h.least
  have hm' := h'.full (by omega)
  rw [rankAt, rankAt, binade_eq]
  omega

/-- Canonical values compare by their exponents first, as their ranks do. -/
theorem Canonical.compare_rankAt (h : Canonical m e) (h' : Canonical m' e') :
    (compare e e').then (compare m m') = compare (rankAt m e : Int) (rankAt m' e') := by
  rcases lt_trichotomy e e' with he | rfl | he
  · have hlt := h.rankAt_lt h' he
    rw [compare_lt_iff_lt.2 he, compare_lt_iff_lt.2 (Int.ofNat_lt.2 hlt)]
    rfl
  · -- with one exponent, the ranks are as far apart as the mantissas
    rw [compare_eq_iff_eq.2 rfl, Ordering.then]
    rcases lt_trichotomy m m' with hm | rfl | hm
    · rw [compare_lt_iff_lt.2 hm, compare_lt_iff_lt.2 (by simpa [rankAt] using hm)]
    · rw [compare_eq_iff_eq.2 rfl, compare_eq_iff_eq.2 rfl]
    · rw [compare_gt_iff_gt.2 hm, compare_gt_iff_gt.2 (by simpa [rankAt] using hm)]
  · have hlt := h'.rankAt_lt h he
    rw [compare_gt_iff_gt.2 he, compare_gt_iff_gt.2 (Int.ofNat_lt.2 hlt)]
    rfl

/-- A rank is that of a finite double up to the exponent `971`. -/
theorem Canonical.rankAt_lt_infinityRank_iff (h : Canonical m e) :
    rankAt m e < infinityRank ↔ e ≤ 971 := by
  have hm := h.length
  have hleast := h.least
  have hfull := h.full
  rw [rankAt, binade_eq, infinityRank_eq]
  omega

end Canonical

/-! ### The fields of a double -/

section Fields

variable {x : Float} {s : Sign} {m : Nat} {e : Int} {h : 0 < m}

/-- Without its sign, a pattern is an exponent field and a mantissa field. -/
theorem rank_eq_fields (b : BitVec (Format.numBits .binary64)) :
    b.toNat % signBit = (unpackExponent b).toNat * binade + (unpackMantissa b).toNat := by
  have hlt : b.toNat < 2 ^ 64 := b.isLt
  rw [toNat_unpackExponent, toNat_unpackMantissa, signBit_eq, binade_eq]
  omega

/-- The fields of a double say its rank. -/
theorem exists_fields (x : Float) :
    ∃ b : BitVec (Format.numBits .binary64), unpacked x = unpack .binary64 b ∧
      magnitude x = (unpackExponent b).toNat * binade + (unpackMantissa b).toNat :=
  ⟨x.toBits.toBitVec, rfl, rank_eq_fields _⟩

/-- The mantissa and the exponent of a finite double are canonical, and its rank is read off them. -/
theorem canonical_of_unpacked (hx : unpacked x = .finite s m e h) :
    Canonical m e ∧ magnitude x = rankAt m e := by
  obtain ⟨b, hb, hrank⟩ := exists_fields x
  have hm : (unpackMantissa b).toNat < 2 ^ 52 := (unpackMantissa b).isLt
  have hbias : (Format.exponentBias .binary64 : Int) = 1023 := rfl
  rw [hb] at hx
  rw [hrank, rankAt, binade_eq]
  simp only [unpack] at hx
  split at hx
  · split at hx <;> cases hx
  split at hx
  · next hzero =>
    split at hx
    · cases hx
    · -- below the least normal double
      obtain ⟨-, rfl, rfl⟩ := UnpackedFloat.finite.inj hx
      have hexponent : ((0#11 : BitVec 11).toNat : Int) - (1023 + 52) + 1 = -1074 := rfl
      rw [hzero, hbias]
      change Canonical _ (((0#11 : BitVec 11).toNat : Int) - (1023 + 52) + 1) ∧ _ =
        ((((0#11 : BitVec 11).toNat : Int) - (1023 + 52) + 1) + 1074).toNat * 2 ^ 52 + _
      rw [hexponent]
      exact ⟨⟨by omega, by omega, fun hne => absurd rfl hne⟩, rfl⟩
  · -- a normal double
    next hzero =>
    obtain ⟨-, rfl, rfl⟩ := UnpackedFloat.finite.inj hx
    have hvalue := toNat_fullMantissa (unpackMantissa b)
    have hpos : (unpackExponent b).toNat ≠ 0 := fun h0 => hzero (BitVec.eq_of_toNat_eq h0)
    rw [hvalue, hbias]
    change Canonical _ (((unpackExponent b).toNat : Int) - (1023 + 52)) ∧ _ =
      ((((unpackExponent b).toNat : Int) - (1023 + 52)) + 1074).toNat * 2 ^ 52 + _
    exact ⟨⟨by omega, by omega, fun _ => by omega⟩, by omega⟩

end Fields

/-! ### Packing what is canonical -/

section Packing

variable {s : Sign} {m : Nat} {e : Int}

/-- A pattern that is packed has the sign it was packed with. -/
theorem unpackSign_packComponents (s : Sign) (e : BitVec 11) (m : BitVec 52) :
    unpackSign (packComponents .binary64 s e m) = s.toBitVec := by
  have hs : s.toBitVec.toNat < 2 := s.toBitVec.isLt
  have he : e.toNat < 2 ^ 11 := e.isLt
  have hm : m.toNat < 2 ^ 52 := m.isLt
  apply BitVec.eq_of_toNat_eq
  rw [toNat_unpackSign, toNat_packComponents, signBit_eq, binade_eq]
  omega

theorem ofBitVec_toBitVec (s : Sign) : Sign.ofBitVec s.toBitVec = s := by
  cases s <;> rfl

/-- An exponent field between the least and the greatest is that of a full mantissa. -/
theorem unpack_packComponents_full (s : Sign) {k : Nat} (hpos : 0 < m) (hk : 0 < k) (hk' : k < 2047)
    (hfull : 2 ^ 52 ≤ m) (hlength : m < 2 ^ 53) :
    unpack .binary64 (packComponents .binary64 s (.ofNat 11 k) (.ofNat 52 m)) =
      .finite s m ((k : Int) - 1075) hpos := by
  have hexponent : (BitVec.ofNat 11 k).toNat = k := by
    rw [BitVec.toNat_ofNat]
    omega
  have hmantissa : (1#1 ++ BitVec.ofNat 52 m).toNat = m := by
    rw [toNat_fullMantissa, BitVec.toNat_ofNat]
    omega
  -- the exponent is neither of the two that have a meaning of their own
  have hmost : BitVec.ofNat 11 k ≠ -1#11 := fun heq =>
    hk'.ne (hexponent.symm.trans (congrArg BitVec.toNat heq))
  have hzero : BitVec.ofNat 11 k ≠ 0#11 := fun heq =>
    hk.ne' (hexponent.symm.trans (congrArg BitVec.toNat heq))
  have hbias : (Format.exponentBias .binary64 : Int) + (52 : Nat) = 1075 := rfl
  simp only [unpack, unpackSign_packComponents, unpackExponent_packComponents,
    unpackMantissa_packComponents, ofBitVec_toBitVec]
  rw [if_neg hmost, if_neg hzero, hbias]
  congr 1
  rw [hexponent]

/-- The least exponent field is that of a mantissa that is not full. -/
theorem unpack_packComponents_least (s : Sign) (hpos : 0 < m) (hlength : m < 2 ^ 52) :
    unpack .binary64 (packComponents .binary64 s (0#11) (.ofNat 52 m)) =
      .finite s m (-1074) hpos := by
  have hmantissa : (BitVec.ofNat 52 m).toNat = m := by
    rw [BitVec.toNat_ofNat]
    omega
  have hzero : BitVec.ofNat 52 m ≠ 0#52 := fun heq =>
    hpos.ne' (hmantissa.symm.trans (congrArg BitVec.toNat heq))
  have hmost : (0#11 : BitVec 11) ≠ -1#11 := by decide
  simp only [unpack, unpackSign_packComponents, unpackExponent_packComponents,
    unpackMantissa_packComponents, ofBitVec_toBitVec]
  rw [if_neg hmost, if_pos trivial, dif_neg hzero]
  congr 1

/-- What is canonical is packed as itself, or as infinity if its exponent is too great. -/
theorem unpacked_packed_finite (h : Canonical m e) (hpos : 0 < m) :
    unpacked (packed (.finite s m e hpos)) =
      if e ≤ 971 then .finite s m e hpos else .infinity s := by
  have hlength := h.length
  have hleast := h.least
  have hbias : (Format.exponentBias .binary64 : Int) = 1023 := rfl
  -- the test for the leading bit, as a bound on the mantissa
  have hlog : m.log2 + 1 = Format.mantissaBits .binary64 ↔ 2 ^ 52 ≤ m := by
    have hlow := Nat.le_log2 (k := 52) hpos.ne'
    have hhigh := (Nat.log2_lt (k := 53) hpos.ne').2 hlength
    change m.log2 + 1 = 53 ↔ _
    omega
  change unpack .binary64 (pack .binary64 _) = _
  simp only [pack, hbias, hlog, Nat.cast_ofNat]
  change unpack .binary64 (if 2048 ≤ (e + 1023 + 52).toNat + 1 then _ else _) = _
  by_cases he : e ≤ 971
  · rw [if_neg (by omega), if_pos he]
    by_cases hfull : 2 ^ 52 ≤ m
    · rw [if_pos hfull, unpack_packComponents_full s hpos (by omega) (by omega) hfull hlength]
      congr 1
      omega
    · -- only the least exponent goes with a mantissa that is not full
      obtain rfl : e = -1074 := by
        by_contra hne
        exact hfull (h.full hne)
      rw [if_neg hfull]
      exact unpack_packComponents_least s hpos (not_le.1 hfull)
  · rw [if_pos (by omega), if_neg he]
    cases s <;> rfl

end Packing

/-! ### Signed ranks -/

/-- The signed rank of an unpacked double; none is meant for what is not a number. -/
def signedRankOf : UnpackedFloat → Int
  | .infinity s => s.apply infinityRank
  | .finite s m e _ => s.apply (rankAt m e)
  | .zero _ | .notANumber => 0

/-- **Signed rank.** The place of a double in the row of all numbers, counted from zero. -/
def signedRank (x : Float) : Int := signedRankOf (unpacked x)

section SignedRank

variable {x y z : Float} {s : Sign} {m : Nat} {e : Int} {h : 0 < m}

/-- Infinity has its rank, whatever its sign. -/
theorem magnitude_of_unpacked_infinity (hx : unpacked x = .infinity s) :
    magnitude x = infinityRank := by
  obtain ⟨b, hb, hrank⟩ := exists_fields x
  rw [hb] at hx
  rw [hrank]
  simp only [unpack] at hx
  split at hx
  · -- of the values that a pattern can have, infinity is the one with the greatest exponent
    next hmost =>
    split at hx
    · next hzero =>
      rw [hmost, hzero]
      rfl
    · cases hx
  · split at hx
    · split at hx <;> cases hx
    · cases hx

/-- A sign does not change how great a number is. -/
theorem natAbs_apply (s : Sign) (n : Nat) : (s.apply n).natAbs = n := by
  cases s <;> simp [Sign.apply]

/-- Without its sign the signed rank is the rank. -/
theorem natAbs_signedRank (hx : x.isNaN = false) : (signedRank x).natAbs = magnitude x := by
  have hnan : (unpacked x).isNaN = false := hx
  unfold signedRank
  cases hu : unpacked x with
  | notANumber =>
    rw [hu] at hnan
    cases hnan
  | infinity s =>
    rw [magnitude_of_unpacked_infinity hu]
    exact natAbs_apply s infinityRank
  | zero s => exact (unpacked_eq_zero_iff.1 ⟨s, hu⟩).symm
  | finite s m e hm =>
    rw [(canonical_of_unpacked hu).2]
    exact natAbs_apply s (rankAt m e)

/-- What is finite lies between zero and infinity. -/
theorem rankAt_bounds (hx : unpacked x = .finite s m e h) :
    (0 : Int) < rankAt m e ∧ (rankAt m e : Int) < infinityRank := by
  have hcanonical := (canonical_of_unpacked hx).1
  have hlt := hcanonical.rankAt_lt_infinityRank_iff.2 (unpack_bounds hx).2
  have hpos : 0 < rankAt m e := Nat.lt_of_lt_of_le h (Nat.le_add_left m _)
  exact ⟨Int.natCast_pos.2 hpos, Int.ofNat_lt.2 hlt⟩

/-- The order of two finite doubles: that of their signs or, if these are the same, of their ranks. -/
theorem compare_finite_signedRankOf {t : Sign} {m' : Nat} {e' : Int} {h' : 0 < m'}
    (hx : unpacked x = .finite s m e h) (hy : unpacked y = .finite t m' e' h') :
    (UnpackedFloat.finite s m e h).compare (.finite t m' e' h') =
      some (compare (s.apply (rankAt m e)) (t.apply (rankAt m' e'))) := by
  have hranks := (canonical_of_unpacked hx).1.compare_rankAt (canonical_of_unpacked hy).1
  have hpos := (rankAt_bounds hx).1
  have hpos' := (rankAt_bounds hy).1
  cases s with
  | negative =>
    cases t with
    | negative =>
      -- of two negative doubles the one with the greater rank comes first
      have hneg : ∀ a b : Int, (compare a b).swap = compare (-a) (-b) := fun a b => by
        rcases lt_trichotomy a b with hab | rfl | hab
        · rw [compare_lt_iff_lt.2 hab, compare_gt_iff_gt.2 (neg_lt_neg hab)]
          rfl
        · rw [compare_eq_iff_eq.2 rfl, compare_eq_iff_eq.2 rfl]
          rfl
        · rw [compare_gt_iff_gt.2 hab, compare_lt_iff_lt.2 (neg_lt_neg hab)]
          rfl
      exact congrArg some ((congrArg Ordering.swap hranks).trans (hneg _ _))
    | positive =>
      have hlt : -(rankAt m e : Int) < rankAt m' e' := by omega
      exact congrArg some (compare_lt_iff_lt.2 hlt).symm
  | positive =>
    cases t with
    | negative =>
      have hgt : -(rankAt m' e' : Int) < rankAt m e := by omega
      exact congrArg some (compare_gt_iff_gt.2 hgt).symm
    | positive => exact congrArg some hranks

/-- What is canonical is packed with its rank, up to infinity. -/
theorem signedRank_packed_finite (s : Sign) (hcanonical : Canonical m e) (hpos : 0 < m) :
    signedRank (packed (.finite s m e hpos)) = s.apply (min (rankAt m e) infinityRank : Nat) := by
  have hrank := hcanonical.rankAt_lt_infinityRank_iff
  rw [signedRank, unpacked_packed_finite hcanonical]
  by_cases he : e ≤ 971
  · rw [if_pos he, Nat.min_eq_left (hrank.2 he).le]
    rfl
  · rw [if_neg he, Nat.min_eq_right (not_lt.1 (mt hrank.1 he))]
    rfl

/-- **Comparing doubles** is comparing their signed ranks. -/
theorem compare_unpacked (hx : x.isNaN = false) (hy : y.isNaN = false) :
    (unpacked x).compare (unpacked y) = some (compare (signedRank x) (signedRank y)) := by
  have hx' : (unpacked x).isNaN = false := hx
  have hy' : (unpacked y).isNaN = false := hy
  have hcompares : ∀ {o : Ordering} {a b : Int}, o.Compares a b → some o = some (compare a b) :=
    fun ho => congrArg some ((cmp_eq_compare _ _).symm.trans ho.cmp_eq).symm
  unfold signedRank
  cases hu : unpacked x with
  | notANumber =>
    rw [hu] at hx'
    cases hx'
  | infinity s =>
    cases hv : unpacked y with
    | notANumber =>
      rw [hv] at hy'
      cases hy'
    | infinity t => cases s <;> cases t <;> rfl
    | zero t => cases s <;> rfl
    -- infinity lies beyond the rank of any finite value, on its own side
    | finite t m e h =>
      have hbounds := rankAt_bounds hv
      cases s <;> cases t <;> refine hcompares ?_ <;>
        simp only [Ordering.Compares, signedRankOf, Sign.apply] <;> omega
  | zero s =>
    cases hv : unpacked y with
    | notANumber =>
      rw [hv] at hy'
      cases hy'
    | infinity t => cases t <;> rfl
    | zero t => rfl
    -- zero has rank zero, and no finite value has
    | finite t m e h =>
      have hbounds := rankAt_bounds hv
      cases t <;> refine hcompares ?_ <;>
        simp only [Ordering.Compares, signedRankOf, Sign.apply] <;> omega
  | finite s m e h =>
    have hbounds := rankAt_bounds hu
    cases hv : unpacked y with
    | notANumber =>
      rw [hv] at hy'
      cases hy'
    | infinity t =>
      cases s <;> cases t <;> refine hcompares ?_ <;>
        simp only [Ordering.Compares, signedRankOf, Sign.apply] <;> omega
    | zero t =>
      cases s <;> refine hcompares ?_ <;>
        simp only [Ordering.Compares, signedRankOf, Sign.apply] <;> omega
    | finite t m' e' h' => exact compare_finite_signedRankOf hu hv

/-- What is compared as less or more or equal is a number. -/
theorem isNaN_of_compare {o : Ordering} (ho : (unpacked x).compare (unpacked y) = some o) :
    x.isNaN = false ∧ y.isNaN = false := by
  change (unpacked x).isNaN = false ∧ (unpacked y).isNaN = false
  cases hu : unpacked x <;> cases hv : unpacked y <;> rw [hu, hv] at ho <;>
    first | exact ⟨rfl, rfl⟩ | cases ho

/-- **Less than** is to have a smaller signed rank, for two numbers. -/
theorem lt_iff_signedRank :
    x < y ↔ x.isNaN = false ∧ y.isNaN = false ∧ signedRank x < signedRank y := by
  rw [lt_iff]
  constructor
  · intro h
    obtain ⟨hx, hy⟩ := isNaN_of_compare h
    rw [compare_unpacked hx hy, Option.some_inj, compare_lt_iff_lt] at h
    exact ⟨hx, hy, h⟩
  · rintro ⟨hx, hy, h⟩
    rw [compare_unpacked hx hy, compare_lt_iff_lt.2 h]

/-- Order is the order of signed ranks, among numbers. -/
theorem le_iff_signedRank :
    x ≤ y ↔ x.isNaN = false ∧ y.isNaN = false ∧ signedRank x ≤ signedRank y := by
  rw [le_iff]
  constructor
  · intro h
    obtain ⟨o, ho, -⟩ := (Option.any_eq_true _ _).1 h
    obtain ⟨hx, hy⟩ := isNaN_of_compare ho
    rw [compare_unpacked hx hy, Option.any_some, Std.isLE_compare] at h
    exact ⟨hx, hy, h⟩
  · rintro ⟨hx, hy, h⟩
    rw [compare_unpacked hx hy, Option.any_some, Std.isLE_compare]
    exact h

/-- A double below one that is less than a third is less than it. -/
theorem lt_of_le_lt (hxy : x ≤ y) (hyz : y < z) : x < z := by
  obtain ⟨hx, -, hle⟩ := le_iff_signedRank.1 hxy
  obtain ⟨-, hz, hlt⟩ := lt_iff_signedRank.1 hyz
  exact lt_iff_signedRank.2 ⟨hx, hz, hle.trans_lt hlt⟩

/-- Less implies less or equal. -/
theorem le_of_lt (h : x < y) : x ≤ y := by
  obtain ⟨hx, hy, hlt⟩ := lt_iff_signedRank.1 h
  exact le_iff_signedRank.2 ⟨hx, hy, hlt.le⟩

/-- Each double that is a number is at most itself. -/
theorem le_of_isNaN (hx : x.isNaN = false) : x ≤ x := le_iff_signedRank.2 ⟨hx, hx, le_rfl⟩

/-- The order of doubles is transitive. -/
theorem le_of_le_le (hxy : x ≤ y) (hyz : y ≤ z) : x ≤ z := by
  obtain ⟨hx, -, hle⟩ := le_iff_signedRank.1 hxy
  obtain ⟨-, hz, hle'⟩ := le_iff_signedRank.1 hyz
  exact le_iff_signedRank.2 ⟨hx, hz, hle.trans hle'⟩

/-- Two numbers neither of which is less than the other are equal, if only as the two zeros are. -/
theorem beq_of_le_of_le (hxy : x ≤ y) (hyx : y ≤ x) : (x == y) = true := by
  obtain ⟨hx, hy, hle⟩ := le_iff_signedRank.1 hxy
  obtain ⟨-, -, hle'⟩ := le_iff_signedRank.1 hyx
  rw [beq_iff, compare_unpacked hx hy, compare_eq_iff_eq.2 (le_antisymm hle hle')]

/-- What is not a number comes before nothing. -/
theorem not_nan_lt (x : Float) : ¬ packed .notANumber < x := fun h =>
  Bool.noConfusion (lt_iff_signedRank.1 h).1

/-- Nor does infinity. -/
theorem not_infinity_lt (x : Float) : ¬ packed (.infinity .positive) < x := fun h => by
  obtain ⟨-, hx, hlt⟩ := lt_iff_signedRank.1 h
  have hinfinity : signedRank (packed (.infinity .positive)) = infinityRank := rfl
  have hx' : (unpacked x).isNaN = false := hx
  have hrank := natAbs_signedRank hx
  rw [hinfinity] at hlt
  cases hu : unpacked x with
  | notANumber =>
    rw [hu] at hx'
    cases hx'
  | infinity s =>
    rw [magnitude_of_unpacked_infinity hu] at hrank
    omega
  -- a finite value has a rank below infinity's
  | zero s | finite s m e hm =>
    have hfinite : (unpacked x).isFinite = true := by
      rw [hu]
      rfl
    have hless : magnitude x < infinityRank := isFinite_iff.1 hfinite
    omega

/-- Of two numbers one is less or the other is not more. -/
theorem lt_of_isNaN_of_not_le (hx : x.isNaN = false) (hy : y.isNaN = false) (h : ¬ x ≤ y) : y < x := by
  rw [le_iff_signedRank] at h
  refine lt_iff_signedRank.2 ⟨hy, hx, ?_⟩
  by_contra hle
  exact h ⟨hx, hy, not_lt.1 hle⟩

/-- Two numbers are in one order or in the other. -/
theorem le_of_not_lt (hx : x.isNaN = false) (hy : y.isNaN = false) (h : ¬ y < x) : x ≤ y :=
  not_not.1 (mt (lt_of_isNaN_of_not_le hx hy) h)

/-- A number that is packed again keeps its place. -/
theorem signedRank_packed_unpacked (hx : x.isNaN = false) :
    signedRank (packed (unpacked x)) = signedRank x := by
  have hnan : (unpacked x).isNaN = false := hx
  rw [signedRank, signedRank]
  cases hu : unpacked x with
  | notANumber =>
    rw [hu] at hnan
    cases hnan
  | infinity s | zero s => cases s <;> rfl
  | finite s m e hm =>
    rw [unpacked_packed_finite (canonical_of_unpacked hu).1, if_pos (unpack_bounds hu).2]

end SignedRank

/-! ### Numbers from zero on -/

/-- A number that is not below zero, by its sign. -/
def IsNonneg : UnpackedFloat → Prop
  | .infinity s | .finite s _ _ _ => s = .positive
  | .zero _ => True
  | .notANumber => False

section Nonneg

variable {x y : Float} {u v : UnpackedFloat}

/-- Being zero or more, read off the value. -/
theorem nonneg_iff : 0.0 ≤ x ↔ IsNonneg (unpacked x) := by
  have hzero : unpacked 0.0 = .zero .positive := rfl
  rw [le_iff, hzero]
  cases unpacked x with
  | notANumber => exact iff_of_false (by simp [UnpackedFloat.compare]) id
  | zero s => exact iff_of_true rfl trivial
  | infinity s | finite s =>
    cases s with
    | negative => exact iff_of_false (by simp [UnpackedFloat.compare]) fun h => by cases h
    | positive => exact iff_of_true rfl rfl

/-- What is zero or more is a number. -/
theorem isNaN_of_nonneg (h : 0.0 ≤ x) : x.isNaN = false := (le_iff_signedRank.1 h).2.1

/-- A number from zero on has its rank for its signed rank. -/
theorem signedRank_of_nonneg (h : 0.0 ≤ x) : signedRank x = magnitude x := by
  have hzero : signedRank 0.0 = 0 := rfl
  obtain ⟨-, hx, hle⟩ := le_iff_signedRank.1 h
  have habs := natAbs_signedRank hx
  omega

/-- What is above zero is zero or more. -/
theorem nonneg_of_lt (h : 0.0 < x) : 0.0 ≤ x := by
  obtain ⟨hzero, hx, hlt⟩ := lt_iff_signedRank.1 h
  exact le_iff_signedRank.2 ⟨hzero, hx, hlt.le⟩

/-- What is above something that is zero or more is so too. -/
theorem nonneg_of_le (hx : 0.0 ≤ x) (hxy : x ≤ y) : 0.0 ≤ y := by
  obtain ⟨hzero, -, hle⟩ := le_iff_signedRank.1 hx
  obtain ⟨-, hy, hle'⟩ := le_iff_signedRank.1 hxy
  exact le_iff_signedRank.2 ⟨hzero, hy, hle.trans hle'⟩

/-- A positive pattern is zero or more, unless its exponent is the greatest. -/
theorem isNonneg_unpack {e : BitVec 11} {m : BitVec 52} (he : e ≠ -1#11) :
    IsNonneg (unpack .binary64 (packComponents .binary64 .positive e m)) := by
  simp only [unpack, unpackSign_packComponents, unpackExponent_packComponents,
    unpackMantissa_packComponents, ofBitVec_toBitVec]
  rw [if_neg he]
  split
  · split
    · exact trivial
    · exact rfl
  · exact rfl

/-- Packing keeps the sign of a number. -/
theorem isNonneg_unpacked_packed (h : IsNonneg u) : IsNonneg (unpacked (packed u)) := by
  change IsNonneg (unpack .binary64 (pack .binary64 u))
  cases u with
  | notANumber => exact h
  | infinity s =>
    obtain rfl : s = .positive := h
    exact rfl
  | zero s => cases s <;> exact trivial
  | finite s m e hpos =>
    obtain rfl : s = .positive := h
    simp only [pack]
    split
    · exact rfl
    next hexponent =>
    split
    · -- the exponent that is stored is below the greatest one
      refine isNonneg_unpack fun hmost => ?_
      have hnat := congrArg BitVec.toNat hmost
      rw [BitVec.toNat_ofNat] at hnat
      change ¬ 2048 ≤ _ + 1 at hexponent
      change _ % 2048 = 2047 at hnat
      omega
    · exact isNonneg_unpack (by decide)

/-- A positive value is rounded to one that is not negative. -/
theorem isNonneg_roundWithAccuracy (m : Nat) (e : Int) (a : Accuracy) :
    IsNonneg (roundWithAccuracy .binary64 .positive m e a) := by
  unfold roundWithAccuracy
  dsimp only
  split
  · exact trivial
  · exact rfl

/-- Sums of values that are zero or more are so as well. -/
theorem isNonneg_add (hu : IsNonneg u) (hv : IsNonneg v) : IsNonneg (add .binary64 u v) := by
  cases u with
  | notANumber => exact hu.elim
  | infinity s =>
    obtain rfl : s = .positive := hu
    cases v with
    | notANumber => exact hv.elim
    | infinity t =>
      obtain rfl : t = .positive := hv
      exact rfl
    | zero | finite => exact rfl
  | zero s =>
    cases v with
    | notANumber => exact hv.elim
    | infinity | finite => exact hv
    | zero t => cases s <;> cases t <;> exact trivial
  | finite s m e hm =>
    obtain rfl : s = .positive := hu
    cases v with
    | notANumber => exact hv.elim
    | infinity => exact hv
    | zero => exact rfl
    | finite t m' e' hm' =>
      obtain rfl : t = .positive := hv
      simp only [add, UnpackedFloat.normalize, Sign.apply]
      split
      · -- the sum of two mantissas is not below zero
        next hlt =>
        rw [compare_lt_iff_lt] at hlt
        omega
      · exact trivial
      · exact isNonneg_roundWithAccuracy _ _ _

/-- **Sums** of numbers from zero on are numbers from zero on. -/
theorem nonneg_add (hx : 0.0 ≤ x) (hy : 0.0 ≤ y) : 0.0 ≤ x + y :=
  nonneg_iff.2 (isNonneg_unpacked_packed (isNonneg_add (nonneg_iff.1 hx) (nonneg_iff.1 hy)))

/-- A sum that starts at zero with a number above zero starts with that number. -/
theorem signedRank_zero_add (h : 0.0 < x) : signedRank (0 + x) = signedRank x := by
  have hx := (lt_iff_signedRank.1 h).2.1
  have hsum : (0 : Float) + x = packed (add .binary64 (.zero .positive) (unpacked x)) := rfl
  have hkept : add .binary64 (.zero .positive) (unpacked x) = unpacked x := by
    cases hu : unpacked x with
    | notANumber | infinity | finite => rfl
    | zero s =>
      -- a zero is not above zero
      have hlt := (lt_iff_signedRank.1 h).2.2
      rw [signedRank, signedRank, hu] at hlt
      exact absurd hlt (lt_irrefl 0)
  rw [hsum, hkept, signedRank_packed_unpacked hx]

end Nonneg

end Arbor.Numeral
