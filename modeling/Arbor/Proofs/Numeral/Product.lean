import Arbor.Geometry.Scalar
import Arbor.Proofs.Numeral.Bits

/-!
# Products with small factors

The product of a double with a factor below one half is infinite only if the double is
(`isInf_mul_of_small`), and minus changes nothing about it (`isInf_neg`). Both hold because of the
exponents. A finite double has a mantissa below `2 ^ 53` and an exponent of `971` at most
(`unpack_bounds`), and what has such an exponent is packed as a finite double
(`isInf_unpack_pack`). A product is rounded in two stages: its mantissa is cut to the length that a
double has and rounded, and is cut once more if the rounding has made it longer. The second cut raises
the exponent by one at most, so that a bound on the total exponent of the product is one on the exponent
of the result (`roundWithAccuracy_finite`).
-/

namespace Arbor.Numeral

open Float.Model (UnpackedFloat Format totalExponent)
open Float.Model.UnpackedFloat

/-! ### Rounding -/

section Rounding

/-- Fifty-three digits are kept, as far as the least exponent lets them. -/
theorem targetExponent_binary64 (n : Int) :
    Format.targetExponent .binary64 n = max (n - 53) (-1074) := rfl

/-- Digits that are cut off are divided away. -/
theorem mantissa_shiftRight (em : ExtendedMantissa) (k : Nat) :
    (em >>> k).mantissa = em.mantissa / 2 ^ k := by
  induction k with
  | zero => exact (Nat.div_one _).symm
  | succ k ih =>
    change (em >>> k).mantissa / 2 = _
    rw [ih, Nat.div_div_eq_div_mul, Nat.pow_succ]

/-- Rounding adds one at most. -/
theorem roundedMantissa_le (em : ExtendedMantissa) : em.roundedMantissa ≤ em.mantissa + 1 := by
  obtain ⟨m, r, s⟩ := em
  cases r <;> cases s <;> simp only [ExtendedMantissa.roundedMantissa, ExtendedMantissa.accuracy,
    Accuracy.roundToNearestEven] <;> omega

variable (m : Nat) (e : Int)

/-- The exponent that a mantissa is cut to is the target, unless it is greater anyway. -/
theorem shiftToTargetExponent_snd :
    (shiftToTargetExponent .binary64 m e .exact).2 =
      max e (Format.targetExponent .binary64 (totalExponent m e)) := by
  change e + ((Format.targetExponent .binary64 (totalExponent m e) - e).toNat : Int) = _
  omega

/-- A number up to a power of two has no greater logarithm. -/
theorem log2_le_of_le {a n : Nat} (h : n ≤ 2 ^ a) : n.log2 ≤ a := by
  by_cases hn : n = 0
  · rw [hn]
    exact Nat.zero_le a
  · refine Nat.le_of_lt_succ ((Nat.log2_lt hn).2 ?_)
    exact Nat.lt_of_le_of_lt h (Nat.pow_lt_pow_right (by decide) (Nat.lt_succ_self a))

/-- A mantissa that is cut by `k` digits and rounded is shorter by as many, or one less than that. -/
theorem log2_rounded_le {k r : Nat} (hr : r ≤ m / 2 ^ k + 1) : r.log2 + k ≤ max (m.log2 + 1) k := by
  have hm : m < 2 ^ (m.log2 + 1) := Nat.lt_log2_self
  by_cases hk : k ≤ m.log2 + 1
  · have hsplit : 2 ^ (m.log2 + 1) = 2 ^ k * 2 ^ (m.log2 + 1 - k) := by
      rw [← Nat.pow_add, Nat.add_sub_cancel' hk]
    have hcut : m / 2 ^ k < 2 ^ (m.log2 + 1 - k) := by
      rw [Nat.div_lt_iff_lt_mul (Nat.two_pow_pos k), Nat.mul_comm, ← hsplit]
      exact hm
    have hlog := log2_le_of_le (Nat.le_trans hr hcut)
    omega
  · -- nothing is left of the mantissa
    have hcut : m / 2 ^ k = 0 :=
      Nat.div_eq_of_lt (Nat.lt_of_lt_of_le hm (Nat.pow_le_pow_right (by decide) (by omega)))
    have hlog := log2_le_of_le (a := 0) (hcut ▸ hr)
    omega

/-- **Rounding.** What is rounded is zero or has an exponent in the range of doubles, if its exponent
and its total exponent are. -/
theorem roundWithAccuracy_finite (s : Sign) (he : e ≤ 971) (htotal : totalExponent m e ≤ 1023) :
    roundWithAccuracy .binary64 s m e .exact = .zero s ∨
      ∃ m' e' h, roundWithAccuracy .binary64 s m e .exact = .finite s m' e' h ∧ e' ≤ 971 := by
  have hexponent := shiftToTargetExponent_snd m e
  have hmantissa : (shiftToTargetExponent .binary64 m e .exact).1.mantissa =
      m / 2 ^ (Format.targetExponent .binary64 (totalExponent m e) - e).toNat :=
    mantissa_shiftRight _ _
  rw [targetExponent_binary64] at hexponent hmantissa
  unfold roundWithAccuracy
  generalize shiftToTargetExponent .binary64 m e .exact = first at hexponent hmantissa
  obtain ⟨em, e₁⟩ := first
  dsimp only at hexponent hmantissa ⊢
  -- the first cut leaves 53 digits, and rounding may make them 54
  have hrounded := log2_rounded_le m (hmantissa ▸ roundedMantissa_le em)
  -- so the second cut takes off one digit at most
  have hlast := shiftToTargetExponent_snd em.roundedMantissa e₁
  rw [targetExponent_binary64] at hlast
  generalize shiftToTargetExponent .binary64 em.roundedMantissa e₁ .exact = last at hlast
  obtain ⟨em', e₂⟩ := last
  dsimp only at hlast ⊢
  split
  · exact .inl rfl
  · next hpos =>
    refine .inr ⟨_, _, Nat.pos_of_ne_zero hpos, rfl, ?_⟩
    unfold totalExponent at *
    omega

end Rounding

/-! ### Infinite doubles -/

/-- A pattern below the greatest exponent is not infinite. -/
theorem isInf_unpack {b : BitVec (Format.numBits .binary64)} (h : unpackExponent b ≠ -1#_) :
    (unpack .binary64 b).isInf = false := by
  obtain ⟨shape, hshape⟩ := exists_shape b h
  have hb := hshape.isFinite (Sign.ofBitVec (unpackSign b))
  rw [← hshape.unpacked] at hb
  cases hu : unpack .binary64 b with
  | infinity s =>
    rw [hu] at hb
    cases hb
  | _ => rfl

/-- The mantissa and the exponent of a finite double. -/
theorem unpack_bounds {b : BitVec (Format.numBits .binary64)} {s : Sign} {m : Nat} {e : Int}
    {h : 0 < m} (hb : unpack .binary64 b = .finite s m e h) : m < 2 ^ 53 ∧ e ≤ 971 := by
  have hm : (unpackMantissa b).toNat < 2 ^ 52 := (unpackMantissa b).isLt
  have he : (unpackExponent b).toNat < 2 ^ 11 := (unpackExponent b).isLt
  have hbias : (Format.exponentBias .binary64 : Int) = 1023 := rfl
  simp only [unpack] at hb
  -- of the four branches two are for finite values, and their exponents are bounded by the field
  split at hb
  · split at hb <;> cases hb
  · next hmax =>
    have hne : (unpackExponent b).toNat ≠ 2047 := fun heq => hmax (BitVec.eq_of_toNat_eq heq)
    have hlt : ((unpackExponent b).toNat : Int) ≤ 2046 := by
      change (unpackExponent b).toNat < 2048 at he
      omega
    split at hb
    · next hzero =>
      have hnil : ((unpackExponent b).toNat : Int) = 0 := congrArg (fun v => (v.toNat : Int)) hzero
      split at hb
      · cases hb
      · obtain ⟨-, rfl, rfl⟩ := UnpackedFloat.finite.inj hb
        rw [hbias]
        change _ ∧ ((unpackExponent b).toNat : Int) - (1023 + 52) + 1 ≤ 971
        exact ⟨Nat.lt_trans hm (by decide), by linarith⟩
    · obtain ⟨-, rfl, rfl⟩ := UnpackedFloat.finite.inj hb
      have hvalue : (1#1 ++ unpackMantissa b).toNat < 2 ^ 53 := (1#1 ++ unpackMantissa b).isLt
      rw [hbias]
      change _ ∧ ((unpackExponent b).toNat : Int) - (1023 + 52) ≤ 971
      exact ⟨hvalue, by linarith⟩

/-- Packing makes nothing infinite that has an exponent in the range of doubles. -/
theorem isInf_unpack_pack {u : UnpackedFloat} (hu : ∀ s m e h, u = .finite s m e h → e ≤ 971) :
    (unpack .binary64 (pack .binary64 u)).isInf = u.isInf := by
  cases u with
  | infinity s => cases s <;> rfl
  | notANumber => rfl
  | zero s => cases s <;> rfl
  | finite s m e h =>
    refine isInf_unpack ?_
    have hbiased : ¬ 2 ^ 11 ≤ (e + (Format.exponentBias .binary64 : Int) +
        (Format.mantissaBitsWithoutImplicit .binary64 : Int)).toNat + 1 := by
      have hbias : (Format.exponentBias .binary64 : Int) = 1023 := rfl
      have he := hu s m e h rfl
      -- the exponent that is stored is below the greatest one
      rw [hbias]
      change ¬ 2048 ≤ (e + 1023 + 52).toNat + 1
      omega
    simp only [pack]
    rw [if_neg hbiased]
    split
    · rw [unpackExponent_packComponents]
      intro hmax
      have hnat := congrArg BitVec.toNat hmax
      rw [BitVec.toNat_ofNat] at hnat
      change (e + 1023 + 52).toNat % 2048 = 2047 at hnat
      change ¬ 2048 ≤ (e + 1023 + 52).toNat + 1 at hbiased
      omega
    · rw [unpackExponent_packComponents]
      decide

/-- Minus makes no double infinite, and none finite. -/
theorem isInf_neg (x : Float) : (-x).isInf = x.isInf := by
  change (unpack .binary64 (pack .binary64 (unpack .binary64 x.toBits.toBitVec).neg)).isInf =
    (unpack .binary64 x.toBits.toBitVec).isInf
  rw [isInf_unpack_pack]
  · cases unpack .binary64 x.toBits.toBitVec <;> rfl
  · intro s m e h hneg
    cases hx : unpack .binary64 x.toBits.toBitVec with
    | finite s' m' e' h' =>
      rw [hx] at hneg
      obtain ⟨-, -, rfl⟩ := UnpackedFloat.finite.inj hneg
      exact (unpack_bounds hx).2
    | _ =>
      rw [hx] at hneg
      cases hneg

/-- **Products with small factors.** A factor of such an exponent is below one half. -/
theorem isInf_mul_of_small {c : Float} {s : Sign} {m : Nat} {e : Int} {h : 0 < m}
    (hc : unpack .binary64 c.toBits.toBitVec = .finite s m e h) (he : e ≤ -54) (x : Float) :
    (x * c).isInf = x.isInf := by
  change (unpack .binary64 (pack .binary64 (UnpackedFloat.mul .binary64
    (unpack .binary64 x.toBits.toBitVec) (unpack .binary64 c.toBits.toBitVec)))).isInf =
    (unpack .binary64 x.toBits.toBitVec).isInf
  rw [hc]
  cases hx : unpack .binary64 x.toBits.toBitVec with
  | infinity s' | notANumber | zero s' =>
    simp only [UnpackedFloat.mul]
    exact isInf_unpack_pack nofun
  | finite s' m' e' h' =>
    obtain ⟨hm', he'⟩ := unpack_bounds hx
    obtain ⟨hm, -⟩ := unpack_bounds hc
    -- the product of two mantissas has twice as many digits at most, and the factor takes them back
    have hlength : (m' * m).log2 < 106 := by
      refine (Nat.log2_lt (Nat.mul_pos h' h).ne').2 ?_
      calc m' * m
        _ < 2 ^ 53 * 2 ^ 53 := Nat.mul_lt_mul'' hm' hm
        _ = 2 ^ 106 := rfl
    have htotal : totalExponent (m' * m) (e' + e) ≤ 1023 := by
      unfold totalExponent
      omega
    simp only [UnpackedFloat.mul]
    rcases roundWithAccuracy_finite (m' * m) (e' + e) (s' * s) (by omega) htotal with
      hzero | ⟨_, e'', _, hfinite, he''⟩
    · rw [hzero]
      exact isInf_unpack_pack nofun
    · rw [hfinite]
      refine isInf_unpack_pack fun _ _ _ _ heq => ?_
      obtain ⟨-, -, rfl⟩ := UnpackedFloat.finite.inj heq
      exact he''

/-- The factor that takes degrees to radians is small. -/
theorem isInf_radians (x : Float) : (Scalar.radians x).isInf = x.isInf := by
  have hbits : (3.141592653589793 / 180.0 : Float).toBits = 0x3f91df46a2529d39 := by decide +kernel
  have hc : unpack .binary64 (3.141592653589793 / 180.0 : Float).toBits.toBitVec =
      .finite .positive 0x11df46a2529d39 (-58) (by decide) := by
    rw [hbits]
    rfl
  exact isInf_mul_of_small hc (by decide) x

end Arbor.Numeral
