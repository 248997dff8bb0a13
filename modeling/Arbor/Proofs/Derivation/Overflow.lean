import Arbor.Proofs.Derivation.Roulette
import Arbor.Proofs.Numeral.Rounding
import Arbor.Proofs.Rule.Legible

/-!
# The roulette with doubles

Doubles round, and the whole weight of a lot may overflow to infinity. This module says what a lot
still keeps of the proportions of `Proofs.Derivation.Roulette` (`Roulette.drawLot_ordered`).

Its order is kept always: a greater draw never picks an earlier rule. Whatever the far ends of the
candidates are rounded to, both draws are compared with the same ones, so it is enough that the point
of the greater draw does not come before the other (`Roulette.land_mono`). As long as the whole weight
is finite, this is because a product is rounded to the nearest double; past that, no point comes before
any far end, and all draws pick the last rule (`Roulette.pick_of_overflow`). So the draw zero picks the
first rule just if the whole weight is finite.
-/

namespace Arbor.Roulette

open Float.Model.UnpackedFloat
open Numeral

/-! ### Points in order -/

section Points

variable {α : Type} [Add α] [LT α] [DecidableLT α] {p q : α}

/-- A point that comes before all that another one comes before is not picked after it. -/
theorem land_mono (h : ∀ x, q < x → p < x) (reached : α) (ws : List α) :
    land p reached ws ≤ land q reached ws := by
  induction ws generalizing reached with
  | nil => exact Nat.le_refl _
  | cons w ws ih =>
    by_cases hws : ws = []
    · rw [hws]
      -- a single weight is picked at any point
      exact Nat.le_refl _
    · rw [land_cons _ _ _ hws, land_cons _ _ _ hws]
      by_cases hp : p < reached + w
      · -- the first point comes before the far end of this weight, and is picked with it
        rw [if_pos hp]
        exact Nat.zero_le _
      · -- it does not, and then neither does the second: both go on to the next weight
        rw [if_neg hp, if_neg fun hq => hp (h _ hq)]
        exact Nat.succ_le_succ (ih (reached + w))

/-- A point that comes before nothing is picked last. -/
theorem land_eq_last (h : ∀ x, ¬ p < x) (reached : α) (ws : List α) :
    land p reached ws = ws.length - 1 := by
  induction ws generalizing reached with
  | nil => rfl
  | cons w ws ih =>
    by_cases hws : ws = []
    · -- the last weight takes all that is left
      rw [hws]
      rfl
    · have hlength := List.length_pos_iff.2 hws
      rw [land_cons _ _ _ hws, if_neg (h _), ih, List.length_cons]
      omega

end Points

/-! ### Points that are rounded -/

section Rounded

variable {ws : List Float} {u u' : Float}

/-- The whole weight is not negative, as no weight is. -/
theorem nonneg_total (hpos : ∀ w ∈ ws, 0.0 < w) : 0.0 ≤ total ws := by
  -- by induction along the weights, from any sum that is not negative already
  have hsum : ∀ reached : Float, 0.0 ≤ reached → 0.0 ≤ ws.foldl (· + ·) reached := by
    induction ws with
    | nil => exact fun _ h => h
    | cons w ws ih =>
      rw [List.forall_mem_cons] at hpos
      exact fun reached h => ih hpos.2 (reached + w) (nonneg_add h (nonneg_of_lt hpos.1))
  exact hsum 0 (by decide)

/-- A draw is finite, since it lies between zero and one. -/
theorem isFinite_of_draw (hu : 0.0 ≤ u) (hu' : u < 1.0) : u.isFinite = true := by
  have hone : signedRank 1.0 < infinityRank := by decide
  have hlt := (lt_iff_signedRank.1 hu').2.2
  -- the order of doubles is that of their ranks, and the rank of one is a finite one
  rw [signedRank_of_nonneg hu] at hlt
  exact isFinite_iff.2 (by omega)

/-- The point of a draw comes before nothing if the whole weight is infinite: it is infinite as well
or, for the draw zero, not a number. -/
theorem not_point_lt (hpos : ∀ w ∈ ws, 0.0 < w) (hinf : (total ws).isFinite = false) (hu : 0.0 ≤ u)
    (hfinite : u.isFinite = true) (x : Float) : ¬ u * total ws < x := by
  have hsign := nonneg_iff.1 hu
  have htotal := nonneg_iff.1 (nonneg_total hpos)
  have hfinite' : (unpacked u).isFinite = true := hfinite
  have hinf' : (unpacked (total ws)).isFinite = false := hinf
  -- the point is the product of what the two doubles unpack to
  change ¬ packed (mul .binary64 (unpacked u) (unpacked (total ws))) < x
  -- the whole weight is a number, since sums of positive numbers are
  cases ht : unpacked (total ws) with
  | notANumber =>
    rw [ht] at htotal
    exact htotal.elim
  | zero t | finite t m e h =>
    rw [ht] at hinf'
    cases hinf'
  | infinity t =>
    rw [ht] at htotal
    obtain rfl : t = .positive := htotal
    cases hs : unpacked u with
    | notANumber | infinity s =>
      rw [hs] at hfinite'
      cases hfinite'
    -- infinitely often zero is no number, and that comes before nothing
    | zero s => exact not_nan_lt x
    -- infinitely often any other draw is infinite, and nothing lies behind that
    | finite s m e h =>
      rw [hs] at hsign
      obtain rfl : s = .positive := hsign
      exact not_infinity_lt x

/-- **A greater draw** never picks an earlier candidate. -/
theorem pick_mono (hpos : ∀ w ∈ ws, 0.0 < w) (hu : 0.0 ≤ u) (hle : u ≤ u') (hu' : u' < 1.0) :
    pick ws u ≤ pick ws u' := by
  have hfinite := isFinite_of_draw hu (lt_of_le_lt hle hu')
  have hfinite' := isFinite_of_draw (nonneg_of_le hu hle) hu'
  refine land_mono (fun x hx => ?_) 0 ws
  cases htotal : (total ws).isFinite with
  -- the greater draw has the greater point, so what it comes before, the other comes before as well
  | true =>
    exact lt_of_le_lt
      (mul_le_mul_of_nonneg hu hle (nonneg_total hpos) hfinite hfinite' htotal) hx
  -- the point of the greater draw comes before nothing at all
  | false => exact absurd hx (not_point_lt hpos htotal (nonneg_of_le hu hle) hfinite' x)

/-- **Overflow.** With an infinite whole weight every draw picks the last candidate. -/
theorem pick_of_overflow (hpos : ∀ w ∈ ws, 0.0 < w) (hinf : (total ws).isFinite = false)
    (hu : 0.0 ≤ u) (hu' : u < 1.0) : pick ws u = ws.length - 1 :=
  land_eq_last (not_point_lt hpos hinf hu (isFinite_of_draw hu hu')) 0 ws

/-- With a finite whole weight the draw zero picks the first candidate. -/
theorem pick_zero (hpos : ∀ w ∈ ws, 0.0 < w) (hfinite : (total ws).isFinite = true) :
    pick ws 0.0 = 0 := by
  cases ws with
  | nil => rfl
  | cons w ws =>
    by_cases hws : ws = []
    · rw [hws]
      rfl
    · -- the point of the draw is a zero, which lies before the first far end
      have hw := hpos w List.mem_cons_self
      have hpoint := nonneg_mul (x := 0.0) (by decide) (nonneg_total hpos) rfl hfinite
      -- the far end of the first weight is that weight, which is above zero
      have hend := nonneg_add (x := 0) (by decide) (nonneg_of_lt hw)
      have hlt : 0.0 * total (w :: ws) < 0 + w := by
        refine lt_iff_signedRank.2 ⟨isNaN_of_nonneg hpoint, isNaN_of_nonneg hend, ?_⟩
        rw [signedRank_zero_mul hfinite, signedRank_zero_add hw]
        exact (lt_iff_signedRank.1 hw).2.2
      rw [pick, land_cons _ _ _ hws, if_pos hlt]

end Rounded

/-! ### Lots between rules -/

/-- A rule that is read has no weight, or one above zero. -/
theorem weight_pos_of_parse {s : String} {r : Rule} {w : Float} (h : Rule.parse s = .ok r)
    (hw : r.weight = some w) : 0.0 < w := by
  obtain ⟨parts, r₀, hlegible, hverdict, rfl⟩ := Rule.exists_written_of_parse h
  cases hverdict with
  -- the text of a rule has no way to write what is no number, so not being below zero is enough
  | rule _ stated positive =>
    have hnumber := (stated.legible hlegible.sections).2 w hw
    exact lt_of_isNaN_of_not_le hnumber rfl (positive w hw)

section Lots

variable {first : Rule} {others : List Rule}

/-- **Lots with doubles.** Rules that are read have no weights but such above zero. Between two rules
or more with such weights, a greater draw never picks an earlier one. The draw zero picks the first rule
if the whole weight is finite, and only then; if it is not, every draw picks the last rule. -/
theorem drawLot_ordered (hothers : others ≠ [])
    (hweights : ∀ r ∈ first :: others, ∃ w, r.weight = some w ∧ 0.0 < w) :
    (∀ (s : String) (r : Rule) (w : Float), Rule.parse s = .ok r → r.weight = some w → 0.0 < w) ∧
    (∀ (σ : Type) [Draws σ] (g g' : σ), 0.0 ≤ (Draws.next g).1 →
      (Draws.next g).1 ≤ (Draws.next g').1 → (Draws.next g').1 < 1.0 →
      (drawLot first others g).1 ≤ (drawLot first others g').1) ∧
    (∀ (σ : Type) [Draws σ] (g : σ), (Draws.next g).1 = 0.0 →
      ((drawLot first others g).1 = 0 ↔
        (total ((first :: others).map Rule.lot)).isFinite = true)) ∧
    ((total ((first :: others).map Rule.lot)).isFinite = false →
      ∀ (σ : Type) [Draws σ] (g : σ), 0.0 ≤ (Draws.next g).1 → (Draws.next g).1 < 1.0 →
        (drawLot first others g).1 = others.length) := by
  -- the weights of the lot are those of the rules
  have hpos : ∀ w ∈ (first :: others).map Rule.lot, 0.0 < w := by
    intro w hw
    obtain ⟨r, hr, rfl⟩ := List.mem_map.1 hw
    obtain ⟨v, hv, hlt⟩ := hweights r hr
    rwa [Rule.lot, hv, Option.getD_some]
  have hlast : (total ((first :: others).map Rule.lot)).isFinite = false →
      ∀ (σ : Type) [Draws σ] (g : σ), 0.0 ≤ (Draws.next g).1 → (Draws.next g).1 < 1.0 →
        (drawLot first others g).1 = others.length := by
    -- all draws are picked last, and the last place is as high as there are other rules
    intro hinf σ _ g hu hu'
    rw [drawLot_fst, pick_of_overflow hpos hinf hu hu', List.length_map, List.length_cons,
      Nat.add_sub_cancel]
  refine ⟨fun s r w => weight_pos_of_parse, ?_, ?_, hlast⟩
  · intro σ _ g g' hu hle hu'
    rw [drawLot_fst, drawLot_fst]
    exact pick_mono hpos hu hle hu'
  · intro σ _ g hg
    constructor
    · -- with an infinite whole weight the last rule would be picked, and there are two or more
      intro hfirst
      by_contra hinf
      rw [Bool.not_eq_true] at hinf
      have hlen := hlast hinf σ g (by rw [hg]; decide) (by rw [hg]; decide)
      exact hothers (List.length_eq_zero_iff.1 (hlen.symm.trans hfirst))
    · -- the point of the draw zero lies before the first far end
      intro hfinite
      rw [drawLot_fst, hg]
      exact pick_zero hpos hfinite

/-- The draw zero and the draw of one half, between a quarter of the weight and the rest. -/
theorem drawLot_ordered_quarter :
    let light : Rule := { predecessor := "A", weight := some 1.0 }
    let heavy : Rule := { predecessor := "A", weight := some 3.0 }
    let zero : Replay := ⟨#[0.0], 0⟩
    let half : Replay := ⟨#[0.5], 0⟩
    [heavy] ≠ [] ∧ (∀ r ∈ [light, heavy], ∃ w, r.weight = some w ∧ 0.0 < w) ∧
      (drawLot light [heavy] zero).1 = 0 ∧
      (drawLot light [heavy] zero).1 ≤ (drawLot light [heavy] half).1 := by
  intro light heavy zero half
  have hothers : [heavy] ≠ [] := List.cons_ne_nil _ _
  have hweights : ∀ r ∈ [light, heavy], ∃ w, r.weight = some w ∧ 0.0 < w := by
    intro r hr
    rcases List.mem_pair.1 hr with rfl | rfl
    · exact ⟨1.0, rfl, by decide +kernel⟩
    · exact ⟨3.0, rfl, by decide +kernel⟩
  obtain ⟨-, hmono, hzero, -⟩ := drawLot_ordered hothers hweights
  refine ⟨hothers, hweights, (hzero Replay zero rfl).2 (by decide +kernel), ?_⟩
  exact hmono Replay zero half (by decide +kernel) (by decide +kernel) (by decide +kernel)

/-- Two weights that are finite, but not their sum: the draw zero picks the second rule. -/
theorem drawLot_zero_last :
    ∃ first second : Rule, Rule.parse "A : 1e308 -> B" = .ok first ∧
      Rule.parse "A : 1e308 -> C" = .ok second ∧
      (drawLot first [second] (⟨#[0.0], 0⟩ : Replay)).1 = 1 :=
  ⟨{ predecessor := "A", weight := some 1e308, successor := [⟨"B", [], false⟩],
      source := some "A : 1e308 -> B" },
    { predecessor := "A", weight := some 1e308, successor := [⟨"C", [], false⟩],
      source := some "A : 1e308 -> C" },
    by decide +kernel, by decide +kernel, by decide +kernel⟩

end Lots

end Arbor.Roulette
