import Arbor.Proofs.Numeral.Order
import Arbor.Proofs.Numeral.Reading
import Mathlib

/-!
# Products are rounded to the nearest double

The product of two finite doubles is the double nearest to the exact product, which is a ratio of
grains (`natAbs_signedRank_mul`). A greater ratio has no smaller nearest double (`nearestRank_mono`), so a
product by a number from zero on keeps the order of numbers (`mul_le_mul_of_nonneg`).

A product is computed from mantissas and exponents. The exact mantissa is cut to the length that a
double has, and what is cut off is kept in two bits, from which the rest is rounded half to even
(`roundedMantissa_shiftRight`). Rounding may carry to a mantissa of one digit more, a power of two,
which is cut once again; the rank is the same before and after that (`signedRank_roundWithAccuracy`).
-/

namespace Arbor.Numeral

open Float.Model (UnpackedFloat Format totalExponent)
open Float.Model.UnpackedFloat

/-! ### Greater ratios -/

section Ratios

variable {num num' den : Nat}

/-- Rounding goes up to the number after the quotient at most. -/
theorem roundHalfEven_le (num den : Nat) : roundHalfEven num den ≤ num / den + 1 := by
  simp only [roundHalfEven]
  split
  · omega
  · split <;> omega

/-- What is greater is not rounded to less. -/
theorem roundHalfEven_mono (den : Nat) (h : num ≤ num') :
    roundHalfEven num den ≤ roundHalfEven num' den := by
  rcases (Nat.div_le_div_right h : num / den ≤ num' / den).eq_or_lt with heq | hlt
  · -- between the same two whole numbers, what is nearer to the greater one stays so
    have hnum := Nat.div_add_mod num den
    have hnum' := Nat.div_add_mod num' den
    have hmod : num % den ≤ num' % den := by
      rw [heq] at hnum
      omega
    simp only [roundHalfEven, heq]
    split_ifs <;> omega
  · -- there is a whole number between the two quotients
    calc roundHalfEven num den
      _ ≤ num / den + 1 := roundHalfEven_le num den
      _ ≤ num' / den := hlt
      _ ≤ roundHalfEven num' den := div_le_roundHalfEven num' den

/-- The bits that are dropped from a count of grains. -/
theorem roundHalfEven_excess_le (n den : Nat) :
    roundHalfEven n (den * 2 ^ ((n / den).log2 - 52)) ≤ 2 * binade := by
  have hdouble : 2 ^ 53 = 2 * binade := rfl
  refine (roundHalfEven_le _ _).trans (Nat.succ_le_of_lt ?_)
  rw [← Nat.div_div_eq_div_mul, Nat.div_lt_iff_lt_mul (Nat.two_pow_pos _)]
  calc n / den
    _ < 2 ^ ((n / den).log2 + 1) := Nat.lt_log2_self
    _ ≤ 2 ^ (53 + ((n / den).log2 - 52)) := Nat.pow_le_pow_right (by decide) (by omega)
    _ = 2 * binade * 2 ^ ((n / den).log2 - 52) := by rw [Nat.pow_add, hdouble]

/-- A number that is too long for a double still fills all digits that are kept of it. -/
theorem le_roundHalfEven_excess {n den : Nat} (h : 0 < (n / den).log2 - 52) :
    binade ≤ roundHalfEven n (den * 2 ^ ((n / den).log2 - 52)) := by
  have hne : n / den ≠ 0 := fun h0 => by simp [h0] at h
  refine le_trans ?_ (div_le_roundHalfEven _ _)
  rw [← Nat.div_div_eq_div_mul, Nat.le_div_iff_mul_le (Nat.two_pow_pos _)]
  calc binade * 2 ^ ((n / den).log2 - 52)
    _ = 2 ^ (n / den).log2 := by rw [binade_eq, ← Nat.pow_add]; congr 1; omega
    _ ≤ n / den := Nat.log2_self_le hne

/-- **A greater ratio** has no smaller nearest rank. -/
theorem nearestRank_mono (den : Nat) (h : num ≤ num') : nearestRank num den ≤ nearestRank num' den := by
  have hgrains : num * grainsPerOne ≤ num' * grainsPerOne := Nat.mul_le_mul_right _ h
  have hlog : (num * grainsPerOne / den).log2 ≤ (num' * grainsPerOne / den).log2 := by
    rw [Nat.log2_eq_log_two, Nat.log2_eq_log_two]
    exact Nat.log_mono_right (Nat.div_le_div_right hgrains)
  rw [nearestRank_eq, nearestRank_eq]
  generalize num * grainsPerOne = n at *
  generalize num' * grainsPerOne = n' at *
  rcases (Nat.sub_le_sub_right hlog 52).eq_or_lt with heq | hlt
  · -- as many bits are dropped from both
    rw [heq]
    exact Nat.add_le_add_left (roundHalfEven_mono _ hgrains) _
  · -- more bits are dropped from the greater one, so it lies in a later binade
    have hless := roundHalfEven_excess_le n den
    have hmore : binade ≤ roundHalfEven n' (den * 2 ^ ((n' / den).log2 - 52)) :=
      le_roundHalfEven_excess (by omega)
    have hsteps : ((n / den).log2 - 52 + 1) * binade ≤ ((n' / den).log2 - 52) * binade :=
      Nat.mul_le_mul_right _ hlt
    rw [Nat.add_mul] at hsteps
    omega

/-- Ranks go up with grains, because grains round to their ranks. -/
theorem grainsOfRank_mono {r r' : Nat} (h : r ≤ r') : grainsOfRank r ≤ grainsOfRank r' := by
  by_contra hlt
  have hback := nearestRank_mono grainsPerOne (not_le.1 hlt).le
  rw [nearestRank_grains, nearestRank_grains] at hback
  exact hlt (h.antisymm hback ▸ le_refl _)

end Ratios

/-! ### Mantissas that are cut -/

section Cut

variable (m : Nat)

/-- What is left of a mantissa when `k` digits are cut off, and what the two bits behind it say about
the rest: whether it is one half at least, and whether it is neither nothing nor one half. -/
theorem shiftRight_bits (k : Nat) :
    (ExtendedMantissa.mk m false false >>> k).mantissa = m / 2 ^ k ∧
      ((ExtendedMantissa.mk m false false >>> k).roundBit = true ↔ 2 ^ k ≤ 2 * (m % 2 ^ k)) ∧
      ((ExtendedMantissa.mk m false false >>> k).stickyBit = true ↔
        2 * (m % 2 ^ k) ≠ 0 ∧ 2 * (m % 2 ^ k) ≠ 2 ^ k) := by
  refine ⟨mantissa_shiftRight _ k, ?_⟩
  induction k with
  | zero =>
    rw [Nat.pow_zero, Nat.mod_one]
    exact ⟨iff_of_false Bool.false_ne_true (by decide), iff_of_false Bool.false_ne_true (by decide)⟩
  | succ k ih =>
    have hpow : 0 < 2 ^ k := Nat.two_pow_pos k
    have hrest : m % 2 ^ k < 2 ^ k := Nat.mod_lt m hpow
    have hsucc : ExtendedMantissa.mk m false false >>> (k + 1) =
      (ExtendedMantissa.mk m false false >>> k).shiftRightOne := rfl
    -- the rest grows by the last digit of what was left
    rw [hsucc, Nat.mod_pow_succ, Nat.pow_succ]
    simp only [ExtendedMantissa.shiftRightOne, mantissa_shiftRight, Bool.or_eq_true, ih.1, ih.2,
      bne_iff_ne]
    rcases Nat.mod_two_eq_zero_or_one (m / 2 ^ k) with hbit | hbit <;> rw [hbit] <;> omega

/-- **Rounding half to even** is what the two bits are for. -/
theorem roundedMantissa_shiftRight (k : Nat) :
    (ExtendedMantissa.mk m false false >>> k).roundedMantissa = roundHalfEven m (2 ^ k) := by
  obtain ⟨hmantissa, hround, hsticky⟩ := shiftRight_bits m k
  generalize ExtendedMantissa.mk m false false >>> k = em at *
  obtain ⟨n, r, s⟩ := em
  dsimp only at hmantissa hround hsticky
  simp only [roundHalfEven, ← hmantissa]
  cases r with
  | false =>
    -- less than one half
    have hlt : 2 * (m % 2 ^ k) < 2 ^ k := by simpa using hround
    rw [if_pos hlt]
    cases s <;> rfl
  | true =>
    have hge : 2 ^ k ≤ 2 * (m % 2 ^ k) := hround.1 rfl
    rw [if_neg (by omega)]
    cases s with
    | false =>
      have hhalf : ¬ 2 ^ k < 2 * (m % 2 ^ k) := by
        have hpow := Nat.two_pow_pos k
        simp only [Bool.false_eq_true, false_iff] at hsticky
        omega
      rw [if_neg hhalf]
      rfl
    | true =>
      have hmore := (hsticky.1 rfl).2
      rw [if_pos (by omega)]
      rfl

/-- The exponent that a mantissa is cut to: that at which it has 53 digits, or the least one. -/
def cutExponent (m : Nat) (e : Int) : Int := max (m.log2 + e - 52) (-1074)

/-- The digits that are cut off. -/
def cutDigits (m : Nat) (e : Int) : Nat := (cutExponent m e - e).toNat

variable (e : Int)

/-- Cutting exactly known digits: what is left, and its exponent. -/
theorem shiftToTargetExponent_exact :
    shiftToTargetExponent .binary64 m e .exact =
      (ExtendedMantissa.mk m false false >>> cutDigits m e, max e (cutExponent m e)) := by
  have htarget : Format.targetExponent .binary64 (totalExponent m e) = cutExponent m e := by
    rw [targetExponent_binary64, totalExponent, cutExponent]
    omega
  refine Prod.ext ?_ ?_
  · rw [cutDigits, ← htarget]
    rfl
  · rw [shiftToTargetExponent_snd, htarget]

variable {m e}

/-- What is left when a mantissa is cut has 53 digits at most, and 53 of them if the exponent is not
the least. -/
theorem cut_bounds (he : e ≤ cutExponent m e) :
    m / 2 ^ cutDigits m e < 2 ^ 53 ∧ (cutExponent m e ≠ -1074 → 2 ^ 52 ≤ m / 2 ^ cutDigits m e) := by
  rw [Nat.div_lt_iff_lt_mul (Nat.two_pow_pos _), Nat.le_div_iff_mul_le (Nat.two_pow_pos _),
    ← Nat.pow_add, ← Nat.pow_add]
  constructor
  · -- a mantissa has one digit more than its logarithm, and the cut takes off all but fifty-three
    calc m
      _ < 2 ^ (m.log2 + 1) := Nat.lt_log2_self
      _ ≤ 2 ^ (53 + cutDigits m e) := by
        refine Nat.pow_le_pow_right (by decide) ?_
        unfold cutDigits cutExponent at *
        omega
  · -- the least exponent apart, as many digits are cut as there are too many
    intro hleast
    have hlog : 52 + cutDigits m e = m.log2 := by
      unfold cutDigits cutExponent at *
      omega
    have hne : m ≠ 0 := fun h0 => by
      rw [h0, Nat.log2_zero] at hlog
      omega
    rw [hlog]
    exact Nat.log2_self_le hne

/-- **The second cut** keeps the rank. Rounding leaves 53 digits, which are not cut, or the next power
of two, which is half of itself with an exponent greater by one. -/
theorem signedRank_cut (s : Sign) {r : Nat} {t : Int} (hleast : -1074 ≤ t) (hr : r ≤ 2 ^ 53)
    (hfull : t ≠ -1074 → 2 ^ 52 ≤ r) :
    signedRank (packed (if h : r / 2 ^ cutDigits r t = 0 then .zero s
      else .finite s (r / 2 ^ cutDigits r t) (max t (cutExponent r t)) (Nat.pos_of_ne_zero h))) =
      s.apply (min ((t + 1074).toNat * binade + r) infinityRank : Nat) := by
  rcases hr.lt_or_eq with hlt | rfl
  · -- nothing more is cut off
    have hlog : r.log2 ≤ 52 := by
      by_cases h0 : r = 0
      · rw [h0, Nat.log2_zero]
        exact Nat.zero_le _
      · exact Nat.lt_succ_iff.1 ((Nat.log2_lt h0).2 hlt)
    have hcut : cutExponent r t ≤ t := by
      unfold cutExponent
      omega
    have hdigits : cutDigits r t = 0 := by
      unfold cutDigits
      omega
    simp only [hdigits, Nat.pow_zero, Nat.div_one, max_eq_left hcut]
    split
    · next h0 =>
      obtain rfl : t = -1074 := by
        by_contra hne
        have := hfull hne
        omega
      subst h0
      cases s <;> rfl
    · next h0 => exact signedRank_packed_finite s ⟨hlt, hleast, hfull⟩ (Nat.pos_of_ne_zero h0)
  · -- the digit that is cut off is a zero
    have hcut : cutExponent (2 ^ 53) t = t + 1 := by
      unfold cutExponent
      rw [Nat.log2_two_pow]
      omega
    have hdigits : cutDigits (2 ^ 53) t = 1 := by
      unfold cutDigits
      omega
    have hhalf : 2 ^ 53 / 2 ^ 1 = 2 ^ 52 := rfl
    have hmax : max t (t + 1) = t + 1 := max_eq_right (by omega)
    have hrank : rankAt (2 ^ 52) (t + 1) = (t + 1074).toNat * binade + 2 ^ 53 := by
      rw [rankAt, binade_eq]
      omega
    simp only [hdigits, hcut, hhalf, hmax]
    rw [dif_neg (by decide), signedRank_packed_finite s ⟨by decide, by omega, fun _ => le_refl _⟩,
      hrank]

/-- **The rank of what is rounded.** It counts the binades below the exponent that the mantissa is cut
to, and the rounded mantissa. -/
theorem signedRank_roundWithAccuracy (s : Sign) (he : e ≤ cutExponent m e) :
    signedRank (packed (roundWithAccuracy .binary64 s m e .exact)) =
      s.apply (min ((cutExponent m e + 1074).toNat * binade +
        roundHalfEven m (2 ^ cutDigits m e)) infinityRank : Nat) := by
  obtain ⟨hlength, hfull⟩ := cut_bounds he
  have hless := roundHalfEven_le m (2 ^ cutDigits m e)
  have hmore := div_le_roundHalfEven m (2 ^ cutDigits m e)
  simp only [roundWithAccuracy, shiftToTargetExponent_exact, roundedMantissa_shiftRight,
    mantissa_shiftRight, max_eq_right he]
  exact signedRank_cut s (le_max_right _ _) (by omega) fun hne => (hfull hne).trans hmore

end Cut

/-! ### Products -/

section Products

/-- Powers of two lengthen a number by their exponents. -/
theorem log2_mul_two_pow {m : Nat} (hm : 0 < m) (a : Nat) : (m * 2 ^ a).log2 = m.log2 + a := by
  induction a with
  | zero => rw [Nat.pow_zero, Nat.mul_one, Nat.add_zero]
  | succ a ih =>
    have hne : m * 2 ^ a ≠ 0 := (Nat.mul_pos hm (Nat.two_pow_pos a)).ne'
    rw [Nat.pow_succ, ← Nat.mul_assoc, Nat.mul_comm _ 2, Nat.log2_two_mul hne, ih, Nat.add_assoc]

/-- Digits that are divided away shorten it by as many. -/
theorem log2_div_two_pow (n b : Nat) : (n / 2 ^ b).log2 = n.log2 - b := by
  rw [Nat.log2_eq_log_two, Nat.log2_eq_log_two, Nat.log_div_base_pow]

/-- The nearest rank of a mantissa with an exponent, as a ratio of powers of two. -/
theorem nearestRank_two_pow {m a b : Nat} {e : Int} (hm : 0 < m) (he : e = a - b)
    (hcut : e ≤ cutExponent m e) :
    nearestRank (m * 2 ^ a) (2 ^ b) =
      (cutExponent m e + 1074).toNat * binade + roundHalfEven m (2 ^ cutDigits m e) := by
  obtain ⟨k, hk, hone⟩ := exists_grainsPerOne
  have hleast : -1074 ≤ cutExponent m e := le_max_right _ _
  -- grains are a power of two, so the number stays a mantissa that is moved to the left
  have hnum : m * 2 ^ a * grainsPerOne = m * 2 ^ (a + k) := by
    rw [hone, Nat.mul_assoc, ← Nat.pow_add]
  have hexcess : (m * 2 ^ (a + k) / 2 ^ b).log2 - 52 = (cutExponent m e + 1074).toNat := by
    rw [log2_div_two_pow, log2_mul_two_pow hm, cutExponent]
    omega
  have hden : 2 ^ b * 2 ^ (cutExponent m e + 1074).toNat = 2 ^ cutDigits m e * 2 ^ (a + k) := by
    rw [← Nat.pow_add, ← Nat.pow_add, cutDigits]
    refine congrArg (2 ^ ·) ?_
    omega
  rw [nearestRank_eq, hnum, hexcess, hden, roundHalfEven_mul_right _ _ (Nat.two_pow_pos _)]

/-- The grains of a mantissa and an exponent. -/
theorem grainsOfRank_rankAt {m : Nat} {e : Int} (h : Canonical m e) :
    grainsOfRank (rankAt m e) = m * 2 ^ (e + 1074).toNat := by
  have hlength := h.length
  have hleast := h.least
  by_cases hfull : 2 ^ 52 ≤ m
  · -- the exponent field counts from one for a mantissa with its leading bit, and from zero without
    have hfield : rankAt m e / binade = (e + 1074).toNat + 1 := by
      rw [rankAt, binade_eq]
      omega
    have hmod : binade + rankAt m e % binade = m := by
      rw [rankAt, binade_eq]
      omega
    simp only [grainsOfRank, hfield, hmod, Nat.add_sub_cancel]
    rfl
  · obtain rfl : e = -1074 := by
      by_contra hne
      exact hfull (h.full hne)
    have hzeros : ((-1074 : Int) + 1074).toNat = 0 := rfl
    rw [rankAt, hzeros, Nat.zero_mul, Nat.zero_add, Nat.pow_zero, Nat.mul_one,
      grainsOfRank_of_lt (by rw [binade_eq]; omega)]

variable {x y z : Float}

/-- The grains of a finite value. -/
theorem grains_of_unpacked {s : Sign} {m : Nat} {e : Int} {h : 0 < m}
    (hx : unpacked x = .finite s m e h) : grains x = m * 2 ^ (e + 1074).toNat := by
  obtain ⟨hcanonical, hrank⟩ := canonical_of_unpacked hx
  rw [grains, hrank, grainsOfRank_rankAt hcanonical]

/-- A zero has no grains. -/
theorem grains_of_zero {s : Sign} (hx : unpacked x = .zero s) : grains x = 0 := by
  rw [grains, unpacked_eq_zero_iff.1 ⟨s, hx⟩]
  rfl

/-- Nothing is rounded to rank zero. -/
theorem nearestRank_zero : nearestRank 0 (grainsPerOne * grainsPerOne) = 0 := by
  refine nearestRank_eq_zero ?_
  rw [Nat.zero_mul]
  exact Nat.mul_pos grainsPerOne_pos grainsPerOne_pos

/-- The exponent of a product of canonical mantissas is not too great to be cut. -/
theorem Canonical.mul_le_cutExponent {m m' : Nat} {e e' : Int} (h : Canonical m e)
    (h' : Canonical m' e') (hm : 0 < m) (hm' : 0 < m') : e + e' ≤ cutExponent (m * m') (e + e') := by
  have hprod : m * m' ≠ 0 := (Nat.mul_pos hm hm').ne'
  unfold cutExponent
  by_cases he : e = -1074
  · by_cases he' : e' = -1074
    · omega
    · have hlog := (Nat.le_log2 hprod).2 ((h'.full he').trans (Nat.le_mul_of_pos_left m' hm))
      omega
  · have hlog := (Nat.le_log2 hprod).2 ((h.full he).trans (Nat.le_mul_of_pos_right m hm'))
    omega

/-- The exact product of two mantissas with exponents is rounded to the nearest double. -/
theorem signedRank_mul_finite {s t : Sign} {m m' : Nat} {e e' : Int} {hm : 0 < m} {hm' : 0 < m'}
    (hx : unpacked x = .finite s m e hm) (hy : unpacked y = .finite t m' e' hm') :
    signedRank (packed (roundWithAccuracy .binary64 (s * t) (m * m') (e + e') .exact)) =
      (s * t).apply
        (min (nearestRank (grains x * grains y) (grainsPerOne * grainsPerOne)) infinityRank : Nat) := by
  obtain ⟨k, hk, hone⟩ := exists_grainsPerOne
  have hcanonical := (canonical_of_unpacked hx).1
  have hcanonical' := (canonical_of_unpacked hy).1
  have hleast := hcanonical.least
  have hleast' := hcanonical'.least
  have hcut := hcanonical.mul_le_cutExponent hcanonical' hm hm'
  -- the exact product, in grains of grains
  have hexact : grains x * grains y = m * m' * 2 ^ ((e + 1074).toNat + (e' + 1074).toNat) := by
    rw [grains_of_unpacked hx, grains_of_unpacked hy, Nat.pow_add, Nat.mul_mul_mul_comm]
  have hones : grainsPerOne * grainsPerOne = 2 ^ (k + k) := by rw [hone, Nat.pow_add]
  rw [hexact, hones, nearestRank_two_pow (Nat.mul_pos hm hm') (by omega) hcut,
    signedRank_roundWithAccuracy (s * t) hcut]

/-- **A product of finite doubles** is the double nearest to the exact product. -/
theorem natAbs_signedRank_mul (hx : x.isFinite = true) (hy : y.isFinite = true) :
    (signedRank (x * y)).natAbs =
      min (nearestRank (grains x * grains y) (grainsPerOne * grainsPerOne)) infinityRank := by
  have hx' : (unpacked x).isFinite = true := hx
  have hy' : (unpacked y).isFinite = true := hy
  -- a product with a zero is a zero of some sign
  have hzero : ∀ s, (signedRank (packed (.zero s))).natAbs = min 0 infinityRank := fun s => by
    cases s <;> rfl
  have hmul : x * y = packed (mul .binary64 (unpacked x) (unpacked y)) := rfl
  rw [hmul]
  cases hu : unpacked x with
  | notANumber | infinity s =>
    rw [hu] at hx'
    cases hx'
  | zero s =>
    rw [grains_of_zero hu, Nat.zero_mul, nearestRank_zero]
    cases hv : unpacked y with
    | notANumber | infinity t =>
      rw [hv] at hy'
      cases hy'
    | zero t | finite t => exact hzero _
  | finite s m e hm =>
    cases hv : unpacked y with
    | notANumber | infinity t =>
      rw [hv] at hy'
      cases hy'
    | zero t =>
      rw [grains_of_zero hv, Nat.mul_zero, nearestRank_zero]
      exact hzero _
    | finite t m' e' hm' =>
      simp only [mul]
      rw [signedRank_mul_finite hu hv]
      exact natAbs_apply _ _

/-- A product of finite numbers from zero on is one of them or infinite. -/
theorem nonneg_mul (hx : 0.0 ≤ x) (hy : 0.0 ≤ y) (hxfinite : x.isFinite = true)
    (hyfinite : y.isFinite = true) : 0.0 ≤ x * y := by
  have hx' : (unpacked x).isFinite = true := hxfinite
  have hy' : (unpacked y).isFinite = true := hyfinite
  rw [nonneg_iff] at hx hy ⊢
  -- the sign of the product is that of both factors
  refine isNonneg_unpacked_packed (u := mul .binary64 (unpacked x) (unpacked y)) ?_
  cases hu : unpacked x with
  | notANumber | infinity s =>
    rw [hu] at hx'
    cases hx'
  | zero s =>
    cases hv : unpacked y with
    | notANumber | infinity t =>
      rw [hv] at hy'
      cases hy'
    | zero t | finite t => exact trivial
  | finite s m e hm =>
    rw [hu] at hx
    obtain rfl : s = .positive := hx
    cases hv : unpacked y with
    | notANumber | infinity t =>
      rw [hv] at hy'
      cases hy'
    | zero t => exact trivial
    | finite t m' e' hm' =>
      rw [hv] at hy
      obtain rfl : t = .positive := hy
      exact isNonneg_roundWithAccuracy _ _ _

/-- The signed rank of a product of finite numbers from zero on. -/
theorem signedRank_mul_of_nonneg (hx : 0.0 ≤ x) (hy : 0.0 ≤ y) (hxfinite : x.isFinite = true)
    (hyfinite : y.isFinite = true) :
    signedRank (x * y) =
      (min (nearestRank (grains x * grains y) (grainsPerOne * grainsPerOne)) infinityRank : Nat) := by
  have hnonneg := signedRank_of_nonneg (nonneg_mul hx hy hxfinite hyfinite)
  rw [← natAbs_signedRank_mul hxfinite hyfinite]
  omega

/-- Nothing of a finite double is zero. -/
theorem signedRank_zero_mul (hy : y.isFinite = true) : signedRank (0.0 * y) = 0 := by
  have hzero : unpacked 0.0 = .zero .positive := rfl
  have hproduct := natAbs_signedRank_mul (x := 0.0) rfl hy
  rw [grains_of_zero hzero, Nat.zero_mul, nearestRank_zero, Nat.zero_min] at hproduct
  exact Int.natAbs_eq_zero.1 hproduct

/-- **Products keep the order** of finite numbers from zero on. -/
theorem mul_le_mul_of_nonneg (hx : 0.0 ≤ x) (hxy : x ≤ y) (hz : 0.0 ≤ z)
    (hxfinite : x.isFinite = true) (hyfinite : y.isFinite = true) (hzfinite : z.isFinite = true) :
    x * z ≤ y * z := by
  have hy := nonneg_of_le hx hxy
  have hranks : magnitude x ≤ magnitude y := by
    have hle := (le_iff_signedRank.1 hxy).2.2
    rw [signedRank_of_nonneg hx, signedRank_of_nonneg hy] at hle
    exact Int.ofNat_le.1 hle
  have hgrains : grains x * grains z ≤ grains y * grains z :=
    Nat.mul_le_mul_right _ (grainsOfRank_mono hranks)
  refine le_iff_signedRank.2 ⟨isNaN_of_nonneg (nonneg_mul hx hz hxfinite hzfinite),
    isNaN_of_nonneg (nonneg_mul hy hz hyfinite hzfinite), ?_⟩
  rw [signedRank_mul_of_nonneg hx hz hxfinite hzfinite,
    signedRank_mul_of_nonneg hy hz hyfinite hzfinite]
  exact Int.ofNat_le.2 (min_le_min_right _ (nearestRank_mono _ hgrains))

end Products

end Arbor.Numeral
