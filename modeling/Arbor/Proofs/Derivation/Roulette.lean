import Arbor.Proofs.Derivation.Selection
import Mathlib.Algebra.BigOperators.Group.List.Basic
import Mathlib.Algebra.BigOperators.Ring.List
import Mathlib.Algebra.Order.BigOperators.Group.List
import Mathlib.Algebra.Order.Field.Basic
import Mathlib.Algebra.Order.Field.Rat
import Mathlib.Order.Interval.Set.Defs
import Mathlib.Tactic.Linarith
import Mathlib.Tactic.NormNum

/-!
# The roulette with exact numbers

A lot between rules is a roulette on which every candidate has a part as long as its weight. This
module says what the roulette picks when its numbers do not round, over any ordered field
(`Roulette.pick_proportional`).

The candidates lie one after the other on a line, and the first `k` of them reach as far as
`farEnd ws k`, the sum of their weights. A draw from zero to one, without one, is a point of that
line, and what is picked is the candidate whose part of the line the point lies in: from the far end
of those before it on, and before its own. So the draws that pick it are an interval as long as its
share of the whole weight, and only the shares matter: to measure all weights in another unit changes
no pick.

The program walks along the line and has the last candidate to fall back on, should the walk find
none. The walk by itself is `firstBeyond?`; a pick is what it finds, or the last place
(`land_eq_getD`). Where it ends is one induction along the candidates (`firstBeyond?_eq_some_iff`),
and with exact numbers it always ends before the last place is passed (`exists_firstBeyond?`). That
rounding can spoil this is seen in `Proofs.Derivation.Overflow`.
-/

namespace Arbor.Roulette

/-! ### The walk along the candidates -/

section Walk

variable {α : Type} [Add α] [LT α] [DecidableLT α]

/-- **The walk.** The first candidate whose far end, counted from `reached`, lies beyond `point`, if
there is one. -/
def firstBeyond? (point reached : α) : List α → Option Nat
  | [] => none
  | w :: ws =>
    if point < reached + w then some 0 else (firstBeyond? point (reached + w) ws).map (· + 1)

/-- With others after it, a candidate is picked or passed. -/
theorem land_cons (point reached w : α) {ws : List α} (h : ws ≠ []) :
    land point reached (w :: ws) =
      if point < reached + w then 0 else land point (reached + w) ws + 1 :=
  land.eq_3 point reached w ws h

/-- A pick is what the walk finds, and the last candidate if it finds none. -/
theorem land_eq_getD (point reached : α) {ws : List α} (h : ws ≠ []) :
    land point reached ws = (firstBeyond? point reached ws).getD (ws.length - 1) := by
  induction ws generalizing reached with
  | nil => exact absurd rfl h
  | cons w ws ih =>
    cases ws with
    | nil =>
      -- of a single candidate the walk and the fall-back say the same
      rw [land, firstBeyond?]
      split <;> rfl
    | cons v ws =>
      rw [land_cons _ _ _ (List.cons_ne_nil v ws), firstBeyond?]
      split
      · -- the point comes before the far end of the first candidate
        rfl
      · -- it does not, and the walk goes on among the others
        rw [ih (reached + w) (List.cons_ne_nil v ws)]
        cases firstBeyond? point (reached + w) (v :: ws) <;> rfl

/-- A lot between rules is the roulette of their weights, also where it makes no draw. -/
theorem drawLot_fst {σ : Type} [Draws σ] (first : Rule) (others : List Rule) (g : σ) :
    (drawLot first others g).1 = pick ((first :: others).map Rule.lot) (Draws.next g).1 := by
  cases others <;> rfl

end Walk

/-! ### Far ends -/

section FarEnds

variable {α : Type} [Field α] {ws : List α} {k : Nat}

/-- **The far end** of the first `k` candidates. -/
def farEnd (ws : List α) (k : Nat) : α := (ws.take k).sum

theorem total_eq_sum (ws : List α) : total ws = ws.sum := List.sum_eq_foldl.symm

@[simp] theorem farEnd_zero (ws : List α) : farEnd ws 0 = 0 := rfl

/-- Behind the first candidate all far ends are moved by its weight. -/
theorem farEnd_cons_succ (w : α) (ws : List α) (k : Nat) :
    farEnd (w :: ws) (k + 1) = w + farEnd ws k := by
  rw [farEnd, List.take_succ_cons, List.sum_cons, farEnd]

/-- The far end of a candidate lies behind that of the one before it by its weight. -/
theorem farEnd_succ (hk : k < ws.length) : farEnd ws (k + 1) = farEnd ws k + ws[k] := by
  rw [farEnd, List.sum_take_succ _ _ hk, farEnd]

theorem total_cons (w : α) (ws : List α) : total (w :: ws) = w + total ws := by
  rw [total_eq_sum, total_eq_sum, List.sum_cons]

/-- In another unit the whole weight is measured in that unit. -/
theorem total_map (c : α) (ws : List α) : total (ws.map (c * ·)) = c * total ws := by
  rw [total_eq_sum, total_eq_sum, List.sum_map_mul_left, List.map_id']

/-- The part of the line that a candidate has is as long as its share of the whole weight. -/
theorem share_eq (hk : k < ws.length) :
    farEnd ws (k + 1) / total ws - farEnd ws k / total ws = ws[k] / total ws := by
  rw [← sub_div, farEnd_succ hk, add_sub_cancel_left]

end FarEnds

/-! ### Where the walk ends -/

section Exact

variable {α : Type} [Field α] [LinearOrder α] {ws : List α} {point reached : α} {k : Nat}

/-- **The walk ends** on the line, for a point that is not past the end of it. -/
theorem exists_firstBeyond? (hreached : reached ≤ point) (hpoint : point < reached + total ws) :
    ∃ k, firstBeyond? point reached ws = some k := by
  induction ws generalizing reached with
  | nil =>
    -- on a line of no length there is no point
    rw [total_eq_sum, List.sum_nil, add_zero] at hpoint
    exact absurd hpoint hreached.not_gt
  | cons w ws ih =>
    rw [firstBeyond?]
    by_cases hlt : point < reached + w
    · exact ⟨0, if_pos hlt⟩
    · -- the first candidate is passed, so the point is not behind the start of the rest
      rw [total_cons, ← add_assoc] at hpoint
      obtain ⟨k, hk⟩ := ih (not_lt.1 hlt) hpoint
      exact ⟨k + 1, by rw [if_neg hlt, hk, Option.map_some]⟩

variable [IsStrictOrderedRing α]

/-- No far end lies before the start of the line. -/
theorem farEnd_nonneg (hpos : ∀ w ∈ ws, 0 < w) (k : Nat) : 0 ≤ farEnd ws k :=
  List.sum_nonneg fun w hw => (hpos w (List.mem_of_mem_take hw)).le

/-- No far end lies behind the end of the line. -/
theorem farEnd_le_total (hpos : ∀ w ∈ ws, 0 < w) (k : Nat) : farEnd ws k ≤ total ws := by
  -- what is left of the line behind the first candidates has no negative length
  have hrest : 0 ≤ (ws.drop k).sum := List.sum_nonneg fun w hw => (hpos w (List.mem_of_mem_drop hw)).le
  rw [total_eq_sum, ← List.sum_take_add_sum_drop ws k]
  exact le_add_of_nonneg_right hrest

/-- The line has a length. -/
theorem total_pos (hne : ws ≠ []) (hpos : ∀ w ∈ ws, 0 < w) : 0 < total ws := by
  rw [total_eq_sum]
  exact List.sum_pos _ hpos hne

/-- **Where the walk ends.** A point that is not behind the start of the line is found in the part of
the line that it lies in. -/
theorem firstBeyond?_eq_some_iff (hpos : ∀ w ∈ ws, 0 < w) (hreached : reached ≤ point) :
    firstBeyond? point reached ws = some k ↔
      reached + farEnd ws k ≤ point ∧ point < reached + farEnd ws (k + 1) := by
  induction ws generalizing reached k with
  | nil =>
    -- a line of no length has no part
    simp only [firstBeyond?, farEnd, List.take_nil, List.sum_nil, add_zero]
    exact iff_of_false nofun fun h => h.1.not_gt h.2
  | cons w ws ih =>
    rw [List.forall_mem_cons] at hpos
    have hfirst : farEnd (w :: ws) 1 = w := by
      rw [farEnd_cons_succ, farEnd_zero, add_zero]
    rw [firstBeyond?]
    by_cases hlt : point < reached + w
    · -- the point lies in the first part, and so in no later one
      rw [if_pos hlt]
      cases k with
      | zero =>
        rw [farEnd_zero, add_zero, zero_add, hfirst]
        exact iff_of_true rfl ⟨hreached, hlt⟩
      | succ k =>
        refine iff_of_false (by simp) fun h => ?_
        have hlater := farEnd_nonneg hpos.2 k
        have hbefore := h.1
        rw [farEnd_cons_succ] at hbefore
        linarith
    · -- the first part is passed, and the walk goes on from its end
      rw [if_neg hlt]
      cases k with
      | zero =>
        rw [zero_add, hfirst]
        exact iff_of_false (by simp) fun h => hlt h.2
      | succ k =>
        rw [farEnd_cons_succ, farEnd_cons_succ, ← add_assoc, ← add_assoc,
          ← ih hpos.2 (not_lt.1 hlt)]
        simp

/-! ### What is picked -/

/-- The point that a draw stands for lies on the line. -/
theorem point_mem (hne : ws ≠ []) (hpos : ∀ w ∈ ws, 0 < w) {u : α} (hu : u ∈ Set.Ico 0 1) :
    u * total ws ∈ Set.Ico 0 (total ws) := by
  have htotal := total_pos hne hpos
  refine ⟨mul_nonneg hu.1 htotal.le, ?_⟩
  calc u * total ws
    _ < 1 * total ws := mul_lt_mul_of_pos_right hu.2 htotal
    _ = total ws := one_mul _

/-- The walk finds the point of a draw, so the last candidate is never fallen back on. -/
theorem firstBeyond?_eq_some_pick (hne : ws ≠ []) (hpos : ∀ w ∈ ws, 0 < w) {u : α}
    (hu : u ∈ Set.Ico 0 1) : firstBeyond? (u * total ws) 0 ws = some (pick ws u) := by
  obtain ⟨hstart, hend⟩ := point_mem hne hpos hu
  obtain ⟨k, hk⟩ := exists_firstBeyond? hstart (hend.trans_eq (zero_add _).symm)
  rw [pick, land_eq_getD _ _ hne, hk, Option.getD_some]

/-- A draw picks the candidate in whose part of the line its point lies. -/
theorem pick_eq_iff (hne : ws ≠ []) (hpos : ∀ w ∈ ws, 0 < w) {u : α} (hu : u ∈ Set.Ico 0 1) :
    pick ws u = k ↔ farEnd ws k ≤ u * total ws ∧ u * total ws < farEnd ws (k + 1) := by
  -- the walk starts at zero, where no draw lies before
  have hwalk := firstBeyond?_eq_some_iff (k := k) hpos (point_mem hne hpos hu).1
  rw [firstBeyond?_eq_some_pick hne hpos hu, Option.some_inj, zero_add, zero_add] at hwalk
  exact hwalk

/-- The walk is the same on a line that is measured in another unit. -/
theorem land_map {c : α} (hc : 0 < c) (point reached : α) (ws : List α) :
    land (c * point) (c * reached) (ws.map (c * ·)) = land point reached ws := by
  fun_induction land point reached ws with
  | case1 => rfl
  | case2 => rfl
  | case3 reached w ws hne hlt =>
    rw [List.map_cons, land_cons _ _ _ (mt List.map_eq_nil_iff.1 hne), ← mul_add,
      if_pos (mul_lt_mul_of_pos_left hlt hc)]
  | case4 reached w ws hne hge ih =>
    have hpassed : ¬ c * point < c * (reached + w) := fun h => hge (lt_of_mul_lt_mul_left h hc.le)
    rw [List.map_cons, land_cons _ _ _ (mt List.map_eq_nil_iff.1 hne), ← mul_add, if_neg hpassed,
      ih]

/-- The same weights in another unit pick the same. -/
theorem pick_map {c : α} (hc : 0 < c) (ws : List α) (u : α) :
    pick (ws.map (c * ·)) u = pick ws u := by
  calc pick (ws.map (c * ·)) u
    _ = land (u * (c * total ws)) 0 (ws.map (c * ·)) := by rw [pick, total_map]
    _ = land (c * (u * total ws)) (c * 0) (ws.map (c * ·)) := by rw [mul_left_comm, mul_zero]
    _ = pick ws u := land_map hc _ _ ws

/-- The draws that pick a candidate are those whose points lie in its part of the line. -/
theorem draws_eq_Ico (hne : ws ≠ []) (hpos : ∀ w ∈ ws, 0 < w) (k : Nat) :
    {u ∈ Set.Ico 0 1 | pick ws u = k} =
      Set.Ico (farEnd ws k / total ws) (farEnd ws (k + 1) / total ws) := by
  have htotal := total_pos hne hpos
  ext u
  rw [Set.mem_Ico, div_le_iff₀ htotal, lt_div_iff₀ htotal]
  constructor
  · rintro ⟨hu, hpick⟩
    exact (pick_eq_iff hne hpos hu).1 hpick
  · intro h
    -- the part lies between the start and the end of the line, so `u` is a draw
    have hstart : 0 ≤ u * total ws := (farEnd_nonneg hpos k).trans h.1
    have hend : u * total ws < total ws := h.2.trans_le (farEnd_le_total hpos _)
    have hu : u ∈ Set.Ico 0 1 :=
      ⟨nonneg_of_mul_nonneg_left hstart htotal, by rwa [mul_lt_iff_lt_one_left htotal] at hend⟩
    exact ⟨hu, (pick_eq_iff hne hpos hu).2 h⟩

variable (ws) in
/-- **Picks are in proportion to the weights.** A lot between rules is the roulette of their weights.
With exact numbers and positive weights, a draw picks the candidate whose part of the line its point
lies in, and there is exactly one; the draws that pick a candidate are an interval as long as its
share of the whole weight; the walk along the candidates finds the one that is picked, so that there
is nothing to fall back on; and weights in another unit pick the same. -/
theorem pick_proportional (hne : ws ≠ []) (hpos : ∀ w ∈ ws, 0 < w) :
    (∀ (σ : Type) [Draws σ] (first : Rule) (others : List Rule) (g : σ),
      (drawLot first others g).1 = pick ((first :: others).map Rule.lot) (Draws.next g).1) ∧
    (∀ u ∈ Set.Ico (0 : α) 1, ∀ k,
      pick ws u = k ↔ farEnd ws k ≤ u * total ws ∧ u * total ws < farEnd ws (k + 1)) ∧
    (∀ u ∈ Set.Ico (0 : α) 1,
      ∃! k, k < ws.length ∧ farEnd ws k ≤ u * total ws ∧ u * total ws < farEnd ws (k + 1)) ∧
    (∀ k, (hk : k < ws.length) →
      {u ∈ Set.Ico 0 1 | pick ws u = k} =
          Set.Ico (farEnd ws k / total ws) (farEnd ws (k + 1) / total ws) ∧
        farEnd ws (k + 1) / total ws - farEnd ws k / total ws = ws[k] / total ws) ∧
    (∀ u ∈ Set.Ico (0 : α) 1, firstBeyond? (u * total ws) 0 ws = some (pick ws u)) ∧
    ∀ c, 0 < c → ∀ u, pick (ws.map (c * ·)) u = pick ws u := by
  refine ⟨fun σ _ => drawLot_fst, fun u hu k => pick_eq_iff hne hpos hu, fun u hu => ?_,
    fun k hk => ⟨draws_eq_Ico hne hpos k, share_eq hk⟩,
    fun u hu => firstBeyond?_eq_some_pick hne hpos hu, fun c hc => pick_map hc ws⟩
  -- the candidate picked is one of the row, and the point lies in its part
  refine ⟨pick ws u, ⟨land_lt _ ws 0 hne, (pick_eq_iff hne hpos hu).1 rfl⟩, ?_⟩
  -- a point that lies in a part picks its candidate, so there is no second one
  rintro k ⟨-, hk⟩
  exact ((pick_eq_iff hne hpos hu).2 hk).symm

end Exact

/-- One candidate with a quarter of the weight before another with the rest, also in other units. -/
theorem pick_proportional_quarter :
    let ws : List Rat := [1, 3]
    ws ≠ [] ∧ (∀ w ∈ ws, 0 < w) ∧ {u ∈ Set.Ico 0 1 | pick ws u = 1} = Set.Ico (1 / 4) 1 ∧
      pick ws (1 / 5) = 0 ∧ pick [2, 6] (1 / 5 : Rat) = 0 := by
  intro ws
  have hne : ws ≠ [] := List.cons_ne_nil _ _
  have hpos : ∀ w ∈ ws, 0 < w := by decide +kernel
  obtain ⟨-, hpick, -, hdraws, -, hunit⟩ := pick_proportional ws hne hpos
  have htotal : total ws = 4 := by decide +kernel
  have hfirst : farEnd ws 1 = 1 := by decide +kernel
  have hboth : farEnd ws 2 = 4 := by decide +kernel
  have hlight : pick ws (1 / 5) = 0 := by
    -- the far ends of the two candidates are computed, and the point lies before the first of them
    rw [hpick (1 / 5) (by norm_num) 0, htotal, farEnd_zero, zero_add, hfirst]
    norm_num
  refine ⟨hne, hpos, ?_, hlight, ?_⟩
  · rw [(hdraws 1 (by decide)).1, htotal, hfirst, hboth]
    norm_num
  · have hdouble : ws.map (2 * ·) = [2, 6] := by decide +kernel
    have hsame := hunit 2 (by norm_num) (1 / 5)
    rw [hdouble, hlight] at hsame
    exact hsame

end Arbor.Roulette
