import Arbor.Numeral.Shortest
import Arbor.Proofs.Numeral.Bits
import Mathlib

/-!
# Decimals read back

The double nearest to a decimal depends on the value of the decimal only: a zero moved from the
coefficient to the exponent changes nothing (`Decimal.toFloat_scale`). `Decimal.rank` takes a short
way for decimals of very large and very small exponents, so this is shown first for the nearest rank
itself (`Decimal.wideRank`), with which the short ways agree up to infinity
(`Decimal.toFloat_eq_wideRank`).

With that the shortest decimal of a magnitude reads back as the magnitude (`shortest_toFloat`). The
search for it returns only what does, and where it finds nothing the exact decimal is a whole number
of grains, which rounds to its own rank (`nearestRank_grains`).
-/

namespace Arbor.Numeral

/-! ### Bounds for the nearest rank -/

/-- The grains of one are a power of two. The exponent stands as a variable, because no proof is to
compute the power. -/
theorem exists_grainsPerOne : ∃ k, k = 1074 ∧ grainsPerOne = 2 ^ k := by
  obtain ⟨k, hk⟩ : ∃ k, k = 1074 := ⟨1074, rfl⟩
  refine ⟨k, hk, ?_⟩
  unfold grainsPerOne
  rw [← hk]
  rfl

/-- A one has some grains. -/
theorem grainsPerOne_pos : 0 < grainsPerOne := by
  obtain ⟨k, -, hk⟩ := exists_grainsPerOne
  rw [hk]
  exact Nat.two_pow_pos k

/-- The nearest rank with powers written as such. -/
theorem nearestRank_eq (num den : Nat) :
    nearestRank num den =
      ((num * grainsPerOne / den).log2 - 52) * binade +
        roundHalfEven (num * grainsPerOne) (den * 2 ^ ((num * grainsPerOne / den).log2 - 52)) :=
  rfl

/-- Rounding goes down to the quotient at most. -/
theorem div_le_roundHalfEven (num den : Nat) : num / den ≤ roundHalfEven num den := by
  simp only [roundHalfEven]
  split
  · exact Nat.le_refl _
  · split <;> omega

/-- Less than half rounds to zero. -/
theorem roundHalfEven_eq_zero {num den : Nat} (h : 2 * num < den) : roundHalfEven num den = 0 := by
  have hlt : num < den := by omega
  simp only [roundHalfEven, Nat.mod_eq_of_lt hlt, if_pos h]
  exact Nat.div_eq_of_lt hlt

/-- Less than half a grain is nearest to zero. -/
theorem nearestRank_eq_zero {num den : Nat} (h : 2 * (num * grainsPerOne) < den) :
    nearestRank num den = 0 := by
  have hcounted : num * grainsPerOne / den = 0 := Nat.div_eq_of_lt (by omega)
  rw [nearestRank_eq, hcounted, Nat.log2_zero, Nat.zero_sub, Nat.zero_mul, Nat.zero_add,
    Nat.pow_zero, Nat.mul_one]
  exact roundHalfEven_eq_zero h

/-- From `2 ^ 1024` on the nearest rank is infinity's at least. -/
theorem infinityRank_le_nearestRank {num den k : Nat} (hk : k = 1024) (hden : 0 < den)
    (h : den * 2 ^ k ≤ num) : infinityRank ≤ nearestRank num den := by
  obtain ⟨j, hj, hone⟩ := exists_grainsPerOne
  have hcounted : 2 ^ (k + j) ≤ num * grainsPerOne / den := by
    rw [Nat.le_div_iff_mul_le hden, hone]
    calc
      2 ^ (k + j) * den = den * 2 ^ k * 2 ^ j := by
        rw [Nat.mul_comm, Nat.mul_assoc, ← Nat.pow_add]
      _ ≤ num * 2 ^ j := Nat.mul_le_mul_right _ h
  have hne : num * grainsPerOne / den ≠ 0 := by
    intro h0
    rw [h0] at hcounted
    exact absurd hcounted (Nat.not_le_of_lt (Nat.two_pow_pos _))
  have hlog : k + j ≤ (num * grainsPerOne / den).log2 := (Nat.le_log2 hne).2 hcounted
  -- what is left when bits are dropped still has its 53rd bit
  have hquotient : 2 ^ 52 ≤ num * grainsPerOne /
      (den * 2 ^ ((num * grainsPerOne / den).log2 - 52)) := by
    rw [← Nat.div_div_eq_div_mul, Nat.le_div_iff_mul_le (Nat.two_pow_pos _), ← Nat.pow_add,
      Nat.add_sub_cancel' (by omega)]
    exact Nat.log2_self_le hne
  have hround := Nat.le_trans hquotient (div_le_roundHalfEven _ _)
  have hsteps : 2046 * binade ≤ ((num * grainsPerOne / den).log2 - 52) * binade :=
    Nat.mul_le_mul_right _ (by omega)
  rw [nearestRank_eq]
  rw [binade_eq] at hsteps ⊢
  rw [infinityRank_eq]
  omega

/-! ### Grains -/

/-- The grains of the ranks below the first normal double are the ranks themselves. -/
theorem grainsOfRank_of_lt {r : Nat} (h : r < binade) : grainsOfRank r = r := by
  have hfield : r / binade = 0 := Nat.div_eq_of_lt h
  simp only [grainsOfRank, hfield, if_true]

/-- The grains of the other ranks are a significand of 53 bits and zeros after it. -/
theorem grainsOfRank_of_le {r : Nat} (h : binade ≤ r) :
    ∃ e m, m < binade ∧ r = (e + 1) * binade + m ∧ grainsOfRank r = (binade + m) * 2 ^ e := by
  have hpos : 0 < binade := Nat.two_pow_pos 52
  have hfield : r / binade ≠ 0 := Nat.pos_iff_ne_zero.1 (Nat.div_pos h hpos)
  refine ⟨r / binade - 1, r % binade, Nat.mod_lt r hpos, ?_, ?_⟩
  · rw [Nat.sub_add_cancel (Nat.pos_of_ne_zero hfield)]
    exact (Nat.div_add_mod' r binade).symm
  · simp only [grainsOfRank, hfield, if_false]
    rfl

/-- The bits of a significand of 53 bits with zeros after it. -/
theorem log2_significand {e m : Nat} (h : m < binade) : ((binade + m) * 2 ^ e).log2 = 52 + e := by
  rw [binade_eq] at h ⊢
  have hge : 2 ^ (52 + e) ≤ (2 ^ 52 + m) * 2 ^ e := by
    rw [Nat.pow_add]
    exact Nat.mul_le_mul_right _ (Nat.le_add_right _ _)
  have hlt : (2 ^ 52 + m) * 2 ^ e < 2 ^ (52 + e + 1) := by
    rw [Nat.add_right_comm, Nat.pow_add]
    exact Nat.mul_lt_mul_of_pos_right (by omega) (Nat.two_pow_pos _)
  have hne : (2 ^ 52 + m) * 2 ^ e ≠ 0 := by
    intro h0
    rw [h0] at hge
    exact absurd hge (Nat.not_le_of_lt (Nat.two_pow_pos _))
  have h₁ := (Nat.le_log2 hne).2 hge
  have h₂ := (Nat.log2_lt hne).2 hlt
  omega

/-- **Grains round to their own rank.** -/
theorem nearestRank_grains (r : Nat) : nearestRank (grainsOfRank r) grainsPerOne = r := by
  have hcounted : grainsOfRank r * grainsPerOne / grainsPerOne = grainsOfRank r :=
    Nat.mul_div_cancel _ grainsPerOne_pos
  rw [nearestRank_eq, hcounted]
  rcases Nat.lt_or_ge r binade with hr | hr
  · -- no bit is dropped
    have hlog : r.log2 - 52 = 0 := by
      by_cases h0 : r = 0
      · rw [h0, Nat.log2_zero]
      · have := (Nat.log2_lt h0).2 (binade_eq ▸ hr)
        omega
    rw [grainsOfRank_of_lt hr, hlog, Nat.zero_mul, Nat.zero_add, Nat.pow_zero, Nat.mul_one]
    exact roundHalfEven_mul r grainsPerOne_pos
  · -- the bits that are dropped are zeros
    obtain ⟨e, m, hm, rfl, hgrains⟩ := grainsOfRank_of_le hr
    have hround : (binade + m) * 2 ^ e * grainsPerOne = (binade + m) * (grainsPerOne * 2 ^ e) := by
      rw [Nat.mul_assoc, Nat.mul_comm (2 ^ e)]
    rw [hgrains, log2_significand hm, Nat.add_sub_cancel_left, hround,
      roundHalfEven_mul _ (Nat.mul_pos grainsPerOne_pos (Nat.two_pow_pos e)), Nat.add_mul,
      Nat.one_mul, Nat.add_assoc]

/-! ### The value of a decimal -/

/-- Equal ratios have one nearest rank. -/
theorem nearestRank_congr {num den num' den' : Nat} (hden : 0 < den) (hden' : 0 < den')
    (h : num * den' = num' * den) : nearestRank num den = nearestRank num' den' := by
  rw [← nearestRank_mul_right num den hden', h, Nat.mul_comm den den',
    nearestRank_mul_right num' den' hden]

/-- A power of ten has three bits and more for each zero. -/
theorem two_pow_le_ten_pow {j k : Nat} (h : j ≤ 3 * k) : 2 ^ j ≤ 10 ^ k :=
  calc
    2 ^ j ≤ 2 ^ (3 * k) := Nat.pow_le_pow_right (by omega) h
    _ = 8 ^ k := Nat.pow_mul 2 3 k
    _ ≤ 10 ^ k := Nat.pow_le_pow_left (by omega) k

namespace Decimal

/-- The rank nearest to a decimal, without short ways. -/
def wideRank (d : Decimal) : Nat :=
  nearestRank (d.coefficient * 10 ^ d.exponent.toNat) (10 ^ (-d.exponent).toNat)

/-- From `10 ^ 401` on a decimal is infinite as a double. -/
theorem infinityRank_le_wideRank {d : Decimal} (hc : d.coefficient ≠ 0) (he : 400 < d.exponent) :
    infinityRank ≤ d.wideRank := by
  obtain ⟨k, hk⟩ : ∃ k, k = 1024 := ⟨1024, rfl⟩
  have hzeros : (-d.exponent).toNat = 0 := by omega
  have hpow : 2 ^ k ≤ 10 ^ d.exponent.toNat := two_pow_le_ten_pow (by omega)
  rw [wideRank, hzeros, Nat.pow_zero]
  refine infinityRank_le_nearestRank hk Nat.one_pos ?_
  rw [Nat.one_mul]
  exact Nat.le_trans hpow (Nat.le_mul_of_pos_left _ (Nat.pos_of_ne_zero hc))

/-- A decimal far below the least double is zero as a double. -/
theorem wideRank_eq_zero {d : Decimal} (he : d.exponent < -(400 + d.coefficient.log2 : Int)) :
    d.wideRank = 0 := by
  obtain ⟨k, hk, hone⟩ := exists_grainsPerOne
  have hzeros : d.exponent.toNat = 0 := by omega
  have hlt : d.coefficient < 2 ^ (d.coefficient.log2 + 1) := Nat.lt_log2_self
  rw [wideRank, hzeros, Nat.pow_zero, Nat.mul_one]
  apply nearestRank_eq_zero
  calc
    2 * (d.coefficient * grainsPerOne) = d.coefficient * 2 ^ (k + 1) := by
      rw [hone, Nat.pow_succ, Nat.mul_comm 2, Nat.mul_assoc]
    _ < 2 ^ (d.coefficient.log2 + 1) * 2 ^ (k + 1) :=
      Nat.mul_lt_mul_of_pos_right hlt (Nat.two_pow_pos _)
    _ = 2 ^ (d.coefficient.log2 + 1 + (k + 1)) := (Nat.pow_add 2 _ _).symm
    _ ≤ 10 ^ (-d.exponent).toNat := two_pow_le_ten_pow (by omega)

/-- The short ways of reading a decimal agree with the long one, up to infinity. -/
theorem min_rank (d : Decimal) : min d.rank infinityRank = min d.wideRank infinityRank := by
  unfold rank
  split
  · -- no digits
    next hc =>
      rw [wideRank, hc, Nat.zero_mul, nearestRank_eq_zero]
      rw [Nat.zero_mul]
      exact Nat.pow_pos (by omega)
  next hc =>
  split
  · next he => rw [Nat.min_self, Nat.min_eq_right (infinityRank_le_wideRank hc he)]
  split
  · next he => rw [wideRank_eq_zero he]
  split
  · next he =>
    have hzeros : (-d.exponent).toNat = 0 := by omega
    rw [wideRank, hzeros, Nat.pow_zero]
    rfl
  · next he =>
    have hzeros : d.exponent.toNat = 0 := by omega
    rw [wideRank, hzeros, Nat.pow_zero, Nat.mul_one]
    rfl

/-- A decimal numeral is read as the double of its rank, however great. -/
theorem toFloat_eq_wideRank (d : Decimal) : d.toFloat = ofRank false d.wideRank := by
  rw [toFloat, ofRank, ofRank, min_rank]

/-- **Scale.** Zeros may stand in the coefficient or in the exponent. -/
theorem toFloat_scale (c k : Nat) (e : Int) :
    (⟨c * 10 ^ k, e⟩ : Decimal).toFloat = (⟨c, e + k⟩ : Decimal).toFloat := by
  have hpos : ∀ n, 0 < 10 ^ n := fun n => Nat.pow_pos (by omega)
  have hrank : (⟨c * 10 ^ k, e⟩ : Decimal).wideRank = (⟨c, e + k⟩ : Decimal).wideRank := by
    refine nearestRank_congr (hpos _) (hpos _) ?_
    -- both sides are the coefficient with as many zeros
    have hzeros : k + (e.toNat + (-(e + k)).toNat) = (e + k).toNat + (-e).toNat := by omega
    change c * 10 ^ k * 10 ^ e.toNat * 10 ^ (-(e + k)).toNat =
      c * 10 ^ (e + k).toNat * 10 ^ (-e).toNat
    rw [Nat.mul_assoc, Nat.mul_assoc, Nat.mul_assoc, ← Nat.pow_add, ← Nat.pow_add, ← Nat.pow_add,
      hzeros]
  rw [toFloat_eq_wideRank, toFloat_eq_wideRank, hrank]

/-- Zeros that are stripped are powers of ten. -/
theorem stripZeros_mul (fuel n : Nat) :
    (stripZeros fuel n).1 * 10 ^ (stripZeros fuel n).2 = n := by
  induction fuel generalizing n with
  | zero => rw [stripZeros, Nat.pow_zero, Nat.mul_one]
  | succ fuel ih =>
    rw [stripZeros]
    split
    · next h =>
      change (stripZeros fuel (n / 10)).1 * 10 ^ ((stripZeros fuel (n / 10)).2 + 1) = n
      rw [Nat.pow_succ, ← Nat.mul_assoc, ih]
      omega
    · exact Nat.mul_one n

/-- A numeral without its last zeros is the same number. -/
theorem normalize_toFloat (d : Decimal) : d.normalize.toFloat = d.toFloat := by
  have hstrip := stripZeros_mul (digitCount d.coefficient) d.coefficient
  change (⟨(stripZeros (digitCount d.coefficient) d.coefficient).1,
    d.exponent + (stripZeros (digitCount d.coefficient) d.coefficient).2⟩ : Decimal).toFloat = _
  rw [← toFloat_scale, hstrip]

end Decimal

/-! ### The shortest decimal -/

/-- A neighbour that was found reads back as the magnitude. -/
theorem rank_of_neighbour? {r : Nat} {e : Int} {d : Decimal} (h : neighbour? r e = some d) :
    d.rank = r := by
  simp only [neighbour?] at h
  split at h
  · next hbelow =>
    -- of the two neighbours one that reads back as the rank is taken, or none
    split at h
    · next habove =>
      rw [← Option.some.inj h]
      exact habove.1
    · rw [← Option.some.inj h]
      exact hbelow
  · split at h
    · next habove =>
      rw [← Option.some.inj h]
      exact habove
    · exact absurd h (by simp)

/-- The exact decimal reads back as the magnitude. -/
theorem exactDecimal_toFloat (r : Nat) : (exactDecimal r).toFloat = ofRank false r := by
  obtain ⟨k, hk, hone⟩ := exists_grainsPerOne
  have hexact : exactDecimal r = ⟨grainsOfRank r * 5 ^ k, -k⟩ := by
    have hplace : (-1074 : Int) = -(k : Int) := by omega
    unfold exactDecimal
    rw [hplace, ← hk]
    rfl
  have hwhole : (-(k : Int)).toNat = 0 := by omega
  have hrank : (exactDecimal r).wideRank = r := by
    rw [hexact, Decimal.wideRank, hwhole, Int.neg_neg, Int.toNat_natCast, Nat.pow_zero, Nat.mul_one]
    -- ten is two times five
    have hten : 10 ^ k = 2 ^ k * 5 ^ k := Nat.mul_pow 2 5 k
    rw [hten, nearestRank_mul_right _ _ (Nat.pow_pos (by omega)), ← hone, nearestRank_grains]
  rw [Decimal.toFloat_eq_wideRank, hrank]

/-- **The shortest decimal of a magnitude reads back as it.** -/
theorem shortest_toFloat (r : Nat) : (shortest r).toFloat = ofRank false r := by
  unfold shortest
  rw [Decimal.normalize_toFloat]
  cases hfound : (List.range 17).findSome?
      fun (n : Nat) => neighbour? r (place (grainsOfRank r) - n) with
  | none => exact exactDecimal_toFloat r
  | some d =>
    obtain ⟨n, -, hn⟩ := List.exists_of_findSome?_eq_some hfound
    rw [Option.getD_some, Decimal.toFloat, rank_of_neighbour? hn]

end Arbor.Numeral
