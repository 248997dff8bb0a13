import Arbor.Derivation.Step
import Arbor.Proofs.Derivation.Selection
import Mathlib.Data.List.Basic

/-!
# A step is parallel

A derivation step is a loop from left to right that hands a source of draws on from symbol to
symbol. This module states what the loop computes without the loop: every position contributes a
piece of its own, and the pieces lie one after the other.

* `piece`: what takes the place of one symbol, and the number of draws that it consumes. It is a
  function of the rules for the symbol's name, the names of its neighbours, the symbol, and the draws
  still unread (`Unread`), so nothing else has a part in it.
* `Grammar.Pieces`: a row of pieces for the first positions of a word. The piece at a position reads
  on in the source where the pieces before it stopped, and sees the neighbours that the word had
  before the step.
* `Grammar.step_parallel`: a step succeeds exactly if every position has a piece, and then its word
  is their concatenation. It fails exactly if some position has none, and names the first such
  position. A part of the word after a non-empty part can be cut off from what stands before: it
  derives the same, whatever stands there, as long as the name next to it and the number of draws
  are the same.

The bridge between a source and its unread draws is `select_eq`: a choice from any source is the
choice from its unread draws, with the source advanced by the number of draws that were counted.
-/

namespace Arbor

open Outcome

variable {σ : Type} [Draws σ]

/-! ### Draws that are still unread -/

/-- **Unread draws.** All the numbers that a source will give, in their order. -/
structure Unread where
  draw : Nat → Float

instance : Draws Unread where
  next u := (u.draw 0, ⟨fun n => u.draw (n + 1)⟩)

namespace Draws

/-- The source after a number of draws. -/
def after (g : σ) : Nat → σ
  | 0 => g
  | n + 1 => after (next g).2 n

/-- The draws that a source has still to give. -/
def unread (g : σ) : Unread := ⟨fun n => (next (after g n)).1⟩

@[simp] theorem after_zero (g : σ) : after g 0 = g := rfl

theorem after_succ (g : σ) (n : Nat) : after g (n + 1) = after (next g).2 n := rfl

/-- Draws add up: so many after so many others. -/
theorem after_add (g : σ) (m n : Nat) : after g (m + n) = after (after g m) n := by
  induction m generalizing g with
  | zero => simp
  | succ m ih => rw [Nat.succ_add, after_succ, after_succ, ih]

end Draws

open Draws (after unread)

/-! ### A choice reads only the unread draws -/

section Choice

variable (s : Symbol Float) (rules : List Rule) (ctx : Neighbours)

/-- A counted source in front of its first draw. -/
def Draws.counted (g : σ) : Counted Unread := { source := unread g }

/-- The source that a counted choice has left. -/
def Draws.advance {α : Type} (g : σ) (x : α × Counted Unread) : α × σ := (x.1, after g x.2.count)

open Draws (counted advance)

/-- A lot from a source is the lot from its unread draws. -/
theorem drawLot_eq (first : Rule) (others : List Rule) (g : σ) :
    drawLot first others g = advance g (drawLot first others (counted g)) := by
  -- with one candidate there is no draw, and else there is one
  unfold drawLot
  split <;> rfl

/-- A choice in one tier reads the unread draws only. -/
theorem selectInTier_eq (rs : List Rule) (g : σ) :
    -- what comes before the lot does not see the source
    selectInTier s rs g = (selectInTier s rs (counted g)).map (advance g) := by
  unfold selectInTier
  cases firstFixed s rs with
  | error e => rfl
  | ok found =>
    cases found with
    | some r => rfl
    | none =>
      cases weightedCandidates s rs with
      | error e => rfl
      | ok candidates =>
        cases candidates with
        | nil => rfl
        -- only the lot draws, and of that the same is known
        | cons first others =>
          simp only [ok_bind]
          rw [drawLot_eq first others g]
          rfl

/-- A choice in several tiers reads the unread draws only. -/
theorem selectInTiers_eq (kinds : List ContextKind) (g : σ) :
    selectInTiers s rules ctx kinds g =
      (selectInTiers s rules ctx kinds (counted g)).map (advance g) := by
  induction kinds with
  | nil => rfl
  | cons kind kinds ih =>
    have htier := selectInTier_eq s (tier rules ctx kind) g
    -- a tier that keeps the symbol has made no draw, so the next tier starts at the same source
    rcases selectInTier_cases s (tier rules ctx kind) (counted g) with
      ⟨hkeep, -⟩ | ⟨r, hfix, -⟩ | ⟨r, i, c, hdrawn, -⟩ | ⟨r, e, herr, -⟩
    · rw [hkeep] at htier
      simp only [selectInTiers, hkeep, htier]
      exact ih
    · rw [hfix] at htier
      simp only [selectInTiers, hfix, htier]
      rfl
    · rw [hdrawn] at htier
      simp only [selectInTiers, hdrawn, htier]
      rfl
    · rw [herr] at htier
      simp only [selectInTiers, herr, htier]
      rfl

/-- **A choice from a source** is the choice from its unread draws, with the source advanced by the
draws that were made. -/
theorem select_eq (g : σ) :
    select s rules ctx g = (select s rules ctx (counted g)).map (advance g) :=
  selectInTiers_eq s rules ctx ContextKind.all g

end Choice

/-! ### The piece of one position -/

/-- **Piece.** What takes the place of a symbol, with the number of draws it consumes: the symbol as
it is if no rule is chosen, else the rule's successor with the symbol's parameters put in. -/
def piece (rules : List Rule) (ctx : Neighbours) (s : Symbol Float) (draws : Unread) :
    Except EvalError (Word × Nat) := do
  let (chosen, used) ← select s rules ctx ({ source := draws } : Counted Unread)
  match chosen.rule? with
  | none => return ([s], used.count)
  | some r => return (← r.expand s, used.count)

/-- The names on both sides of a position, where `left` is the name before the word. -/
def Word.neighboursFrom (left : Option String) (w : Word) (i : Nat) : Neighbours where
  left := if i = 0 then left else w[i - 1]?.map Symbol.name
  right := w[i + 1]?.map Symbol.name

/-- The names on both sides of a position in a word. -/
def Word.neighboursAt (w : Word) (i : Nat) : Neighbours := w.neighboursFrom none i

/-- The number of draws that a row of pieces consumes. -/
def consumed : List (Word × Nat) → Nat
  | [] => 0
  | p :: ps => p.2 + consumed ps

@[simp] theorem consumed_nil : consumed [] = 0 := rfl

@[simp] theorem consumed_cons (p : Word × Nat) (ps : List (Word × Nat)) :
    consumed (p :: ps) = p.2 + consumed ps := rfl

/-- The draws of two rows one after the other add up. -/
@[simp] theorem consumed_append (ps qs : List (Word × Nat)) :
    consumed (ps ++ qs) = consumed ps + consumed qs := by
  induction ps with
  | nil => simp
  | cons p ps ih => rw [List.cons_append, consumed_cons, consumed_cons, ih, Nat.add_assoc]

namespace Grammar

variable (gr : Grammar)

/-- The piece of a position, after `ps` for the positions before it. -/
def pieceAfter (left : Option String) (w : Word) (g : σ) (ps : List (Word × Nat)) (i : Nat)
    (s : Symbol Float) : Except EvalError (Word × Nat) :=
  piece (gr.rulesFor s.name) (w.neighboursFrom left i) s (unread (after g (consumed ps)))

/-- The pieces of the first positions of a word that follows on a symbol named `left`. -/
def PiecesFrom (left : Option String) (w : Word) (g : σ) (ps : List (Word × Nat)) : Prop :=
  ∀ i p, ps[i]? = some p →
    ∃ s, w[i]? = some s ∧ gr.pieceAfter left w g (ps.take i) i s = .ok p

/-- Replacing one symbol is taking its piece and going on with the source after its draws. -/
theorem replace_eq (ctx : Neighbours) (position : Nat) (s : Symbol Float) (g : σ) :
    gr.replace ctx position s g =
      ((piece (gr.rulesFor s.name) ctx s (unread g)).mapError (.noValue s position)).map
        fun p => (p.1, after g p.2) := by
  -- the choice from the source is the one from its unread draws
  have hsel : select s (gr.rulesFor s.name) ctx g =
      (select s (gr.rulesFor s.name) ctx (⟨unread g, 0⟩ : Counted Unread)).map
        (Draws.advance g) := select_eq s _ ctx g
  unfold replace piece
  cases hc : select s (gr.rulesFor s.name) ctx (⟨unread g, 0⟩ : Counted Unread) with
  -- the choice fails, and there is neither a piece nor a replacement
  | error e =>
    rw [hsel, hc]
    rfl
  | ok found =>
    obtain ⟨chosen, c⟩ := found
    rw [hsel, hc]
    simp only [Except.map, Draws.advance, mapError_ok, ok_bind, replacement]
    cases hr : chosen.rule? with
    -- no rule is chosen, and the symbol is its own piece
    | none => rfl
    | some r =>
      -- the chosen rule has accepted the symbol, so it has a successor for its parameters
      have harity := (mem_of_select s _ ctx hc hr).2.1
      simp only [Rule.produce, Rule.matchesArity, harity, decide_true, if_true]
      cases r.expand s with
      | error e => rfl
      | ok out => rfl

/-! ### Rows of pieces -/

section Rows

variable {left : Option String} {s : Symbol Float} {w : Word} {g : σ} {p : Word × Nat}
  {ps qs : List (Word × Nat)}

/-- There is always the row without pieces. -/
@[simp] theorem piecesFrom_nil : gr.PiecesFrom left w g [] := by
  intro i p h
  simp at h

/-- The piece of a later position sees the first symbol of the word as its left neighbour, or does
not see it, and reads on after the first piece. -/
theorem pieceAfter_succ (i : Nat) (t : Symbol Float) :
    gr.pieceAfter left (s :: w) g (p :: ps) (i + 1) t =
      gr.pieceAfter (some s.name) w (after g p.2) ps i t := by
  -- behind the first symbol the left neighbour is the same in the word and in its rest
  have hctx : Word.neighboursFrom left (s :: w) (i + 1) = Word.neighboursFrom (some s.name) w i := by
    cases i <;> simp [Word.neighboursFrom]
  rw [pieceAfter, pieceAfter, hctx, consumed_cons, Draws.after_add]

/-- A row of pieces begins with that of the first symbol, and its rest is a row for the rest of the
word. -/
theorem piecesFrom_cons :
    gr.PiecesFrom left (s :: w) g (p :: ps) ↔
      gr.pieceAfter left (s :: w) g [] 0 s = .ok p ∧
        gr.PiecesFrom (some s.name) w (after g p.2) ps := by
  constructor
  · intro h
    refine ⟨?_, fun i q hq => ?_⟩
    · -- the first position
      obtain ⟨t, ht, hp⟩ := h 0 p rfl
      obtain rfl : s = t := Option.some.inj ht
      exact hp
    · -- a later one, which is the one before it in the rest
      obtain ⟨t, ht, hp⟩ := h (i + 1) q hq
      rw [List.take_succ_cons, pieceAfter_succ] at hp
      exact ⟨t, ht, hp⟩
  · rintro ⟨hp, h⟩ i q hq
    cases i with
    | zero =>
      obtain rfl : p = q := Option.some.inj hq
      exact ⟨s, rfl, hp⟩
    | succ i =>
      obtain ⟨t, ht, hp⟩ := h i q hq
      refine ⟨t, ht, ?_⟩
      rw [List.take_succ_cons, pieceAfter_succ]
      exact hp

/-- A row has at most as many pieces as the word has symbols. -/
theorem PiecesFrom.length_le (h : gr.PiecesFrom left w g ps) : ps.length ≤ w.length := by
  refine Nat.le_of_not_lt fun hlt => ?_
  obtain ⟨s, hs, -⟩ := h w.length ps[w.length] (List.getElem?_eq_getElem hlt)
  simp at hs

/-- A word has one row of pieces of each length. -/
theorem PiecesFrom.eq_take (hp : gr.PiecesFrom left w g ps) (hq : gr.PiecesFrom left w g qs)
    (hle : ps.length ≤ qs.length) : ps = qs.take ps.length := by
  -- the source is general: both rests start where the one first piece has stopped
  induction w generalizing left g ps qs with
  | nil =>
    have h := PiecesFrom.length_le gr hp
    obtain rfl : ps = [] := by simpa using h
    simp
  | cons s w ih =>
    cases ps with
    | nil => simp
    | cons p ps =>
      cases qs with
      | nil => simp at hle
      | cons q qs =>
        rw [piecesFrom_cons] at hp hq
        -- the first pieces are the same, so the rests are rows for the same word and source
        have hpq : p = q := Except.ok.inj (hp.1.symm.trans hq.1)
        subst hpq
        rw [List.length_cons, List.take_succ_cons, ← ih hp.2 hq.2 (by simpa using hle)]

end Rows

/-! ### The loop -/

/-- What a step over a word comes to: a row of pieces for all of it, or one up to the first position
without a piece. -/
theorem stepFrom_cases (left : Option String) (position : Nat) (w : Word) (g : σ) :
    (∃ ps, ps.length = w.length ∧ gr.PiecesFrom left w g ps ∧
      gr.stepFrom left position w g = .ok (ps.flatMap Prod.fst, after g (consumed ps))) ∨
    ∃ ps s e, gr.PiecesFrom left w g ps ∧ w[ps.length]? = some s ∧
      gr.pieceAfter left w g ps ps.length s = .error e ∧
      gr.stepFrom left position w g = .error (.noValue s (position + ps.length) e) := by
  induction w generalizing left position g with
  | nil => exact .inl ⟨[], rfl, piecesFrom_nil gr, rfl⟩
  | cons s w ih =>
    -- the neighbours of the first position are those that the loop hands on
    have hctx : Word.neighboursFrom left (s :: w) 0 =
        { left, right := w.head?.map Symbol.name } := by
      cases w <;> rfl
    have hrep := gr.replace_eq { left, right := w.head?.map Symbol.name } position s g
    cases hpiece : gr.pieceAfter left (s :: w) g [] 0 s with
    | error e =>
      -- the first position has no piece: the row that fits is empty
      refine .inr ⟨[], s, e, piecesFrom_nil gr, rfl, hpiece, ?_⟩
      rw [pieceAfter, hctx, consumed_nil, Draws.after_zero] at hpiece
      rw [hpiece] at hrep
      simp only [stepFrom, hrep]
      rfl
    | ok p =>
      -- the first piece is put in front of what the rest of the loop comes to
      have hstep : gr.stepFrom left position (s :: w) g =
          (gr.stepFrom (some s.name) (position + 1) w (after g p.2)).map
            fun x => (p.1 ++ x.1, x.2) := by
        rw [pieceAfter, hctx, consumed_nil, Draws.after_zero] at hpiece
        rw [hpiece] at hrep
        simp only [stepFrom, hrep]
        rfl
      rcases ih (some s.name) (position + 1) (after g p.2) with
        ⟨ps, hlen, hps, hok⟩ | ⟨ps, t, e, hps, ht, herr, hfail⟩
      · -- the rest has a piece everywhere, and so has the whole
        refine .inl ⟨p :: ps, by simp [hlen], (piecesFrom_cons gr).2 ⟨hpiece, hps⟩, ?_⟩
        rw [hstep, hok, consumed_cons, Draws.after_add]
        rfl
      · -- the rest stops at some position, and the whole one position further on
        refine .inr ⟨p :: ps, t, e, (piecesFrom_cons gr).2 ⟨hpiece, hps⟩, ht, ?_, ?_⟩
        · rw [List.length_cons, pieceAfter_succ]
          exact herr
        · rw [hstep, hfail, List.length_cons, Nat.add_right_comm, Nat.add_assoc]
          rfl

/-! ### One step -/

/-- **Pieces.** A row of pieces for the first positions of a word. -/
def Pieces (w : Word) (g : σ) (ps : List (Word × Nat)) : Prop :=
  ∀ i p, ps[i]? = some p → ∃ s, w[i]? = some s ∧
    piece (gr.rulesFor s.name) (w.neighboursAt i) s (unread (after g (consumed (ps.take i)))) = .ok p

/-- **Stop.** The position after the pieces `ps` has no piece, because of `e`. -/
def StopsAfter (w : Word) (g : σ) (ps : List (Word × Nat)) (s : Symbol Float) (e : EvalError) :
    Prop :=
  gr.Pieces w g ps ∧ w[ps.length]? = some s ∧
    piece (gr.rulesFor s.name) (w.neighboursAt ps.length) s (unread (after g (consumed ps))) =
      .error e

variable {gr} {w : Word} {g : σ} {ps qs : List (Word × Nat)} {s : Symbol Float} {e : EvalError}

/-- A word has one row of pieces of each length. -/
theorem Pieces.eq_take (hp : gr.Pieces w g ps) (hq : gr.Pieces w g qs)
    (hle : ps.length ≤ qs.length) : ps = qs.take ps.length := by
  have hp' : gr.PiecesFrom none w g ps := hp
  exact PiecesFrom.eq_take gr hp' hq hle

/-- Where a step stops, no row of pieces goes on. -/
theorem StopsAfter.length_le (hs : gr.StopsAfter w g ps s e) (hq : gr.Pieces w g qs) :
    qs.length ≤ ps.length := by
  obtain ⟨hp, hw, herr⟩ := hs
  refine Nat.le_of_not_lt fun hlt => ?_
  -- a longer row would have a piece at the position that has none
  obtain ⟨t, ht, hok⟩ := hq ps.length qs[ps.length] (List.getElem?_eq_getElem hlt)
  obtain rfl : s = t := Option.some.inj (hw.symm.trans ht)
  rw [← hp.eq_take hq (Nat.le_of_lt hlt), herr] at hok
  exact absurd hok (by simp)

/-- A step stops at one position only, for one reason. -/
theorem StopsAfter.unique {t : Symbol Float} {d : EvalError} (hs : gr.StopsAfter w g ps s e)
    (ht : gr.StopsAfter w g qs t d) : ps = qs ∧ s = t ∧ e = d := by
  have hlen : ps.length = qs.length :=
    Nat.le_antisymm (ht.length_le hs.1) (hs.length_le ht.1)
  obtain rfl : ps = qs := by
    have := hs.1.eq_take ht.1 (Nat.le_of_eq hlen)
    rwa [hlen, List.take_length] at this
  obtain rfl : s = t := Option.some.inj (hs.2.1.symm.trans ht.2.1)
  exact ⟨rfl, rfl, Except.error.inj (hs.2.2.symm.trans ht.2.2)⟩

variable (gr) in
/-- A step over a whole word comes to a row of pieces for all of it, or it stops after some. -/
theorem step_cases (w : Word) (g : σ) :
    (∃ ps, ps.length = w.length ∧ gr.Pieces w g ps ∧
      gr.step w g = .ok (ps.flatMap Prod.fst, after g (consumed ps))) ∨
    ∃ ps s e, gr.StopsAfter w g ps s e ∧ gr.step w g = .error (.noValue s ps.length e) := by
  rcases gr.stepFrom_cases none 0 w g with h | ⟨ps, s, e, hps, hs, herr, hfail⟩
  · exact .inl h
  · rw [Nat.zero_add] at hfail
    exact .inr ⟨ps, s, e, ⟨hps, hs, herr⟩, hfail⟩

/-- A step succeeds exactly if every position has a piece, and gives the pieces one after the
other. -/
theorem step_eq_ok_iff {out : Word} {g' : σ} :
    gr.step w g = .ok (out, g') ↔ ∃ ps, ps.length = w.length ∧ gr.Pieces w g ps ∧
      out = ps.flatMap Prod.fst ∧ g' = after g (consumed ps) := by
  rcases gr.step_cases w g with ⟨ps, hlen, hps, hok⟩ | ⟨ps, s, e, hstop, herr⟩
  · rw [hok]
    simp only [Except.ok.injEq, Prod.mk.injEq]
    constructor
    · rintro ⟨rfl, rfl⟩
      exact ⟨ps, hlen, hps, rfl, rfl⟩
    · rintro ⟨qs, hqlen, hqs, rfl, rfl⟩
      -- there is one row of pieces of this length only
      have heq : ps = qs := by
        have := hps.eq_take hqs (by omega)
        rwa [hlen, ← hqlen, List.take_length] at this
      exact heq ▸ ⟨rfl, rfl⟩
  · rw [herr]
    constructor
    · -- the step has failed, and so it does not succeed
      intro h
      cases h
    · -- a row for the whole word would go on behind the position without a piece
      rintro ⟨qs, hqlen, hqs, -⟩
      have hlt : ps.length < w.length := (List.getElem?_eq_some_iff.1 hstop.2.1).1
      have := hstop.length_le hqs
      omega

/-- A step fails exactly if some position has no piece, at the first such position. -/
theorem step_eq_error_iff {err : StepError} :
    gr.step w g = .error err ↔
      ∃ ps s e, gr.StopsAfter w g ps s e ∧ err = .noValue s ps.length e := by
  rcases gr.step_cases w g with ⟨qs, hlen, hqs, hok⟩ | ⟨qs, t, d, hstop, herr⟩
  · rw [hok]
    constructor
    · -- the step has succeeded
      intro h
      cases h
    · -- if it stopped somewhere, the row for the whole word would go on behind that position
      rintro ⟨ps, s, e, hstop, -⟩
      have hlt : ps.length < w.length := (List.getElem?_eq_some_iff.1 hstop.2.1).1
      have := hstop.length_le hqs
      omega
  · rw [herr]
    constructor
    · intro h
      exact ⟨qs, t, d, hstop, (Except.error.inj h).symm⟩
    · rintro ⟨ps, s, e, hps, rfl⟩
      obtain ⟨rfl, rfl, rfl⟩ := hstop.unique hps
      rfl

/-! ### Cutting a word -/

/-- A position behind a non-empty part sees no more of that part than its last name. -/
theorem neighboursAt_append {u u' v : Word} (hu : u ≠ []) (hu' : u' ≠ [])
    (hlast : u.getLast?.map Symbol.name = u'.getLast?.map Symbol.name) (i : Nat) :
    (u ++ v).neighboursAt (u.length + i) = (u' ++ v).neighboursAt (u'.length + i) := by
  have hpos : 0 < u.length := List.length_pos_iff.2 hu
  have hpos' : 0 < u'.length := List.length_pos_iff.2 hu'
  -- on the right it sees the second part only, on the left the last name of the first at most
  have hright : ∀ x : Word, (x ++ v)[x.length + i + 1]? = v[i + 1]? := fun x => by
    rw [Nat.add_assoc, List.getElem?_append_right (by omega), Nat.add_sub_cancel_left]
  have hleft : ∀ x : Word, 0 < x.length →
      (x ++ v)[x.length + i - 1]? = if i = 0 then x.getLast? else v[i - 1]? := by
    intro x hx
    cases i with
    -- the position next to the first part sees the last symbol of that part
    | zero =>
      rw [if_pos rfl, List.getLast?_eq_getElem?, Nat.add_zero,
        List.getElem?_append_left (by omega)]
    -- the later ones see a symbol of the second part
    | succ i =>
      rw [if_neg (by omega), List.getElem?_append_right (by omega)]
      congr 1
      omega
  simp only [Word.neighboursAt, Word.neighboursFrom, hright, hleft u hpos, hleft u' hpos',
    if_neg (show ¬ u.length + i = 0 by omega), if_neg (show ¬ u'.length + i = 0 by omega)]
  cases i with
  | zero => simp only [if_true, hlast]
  | succ i => rfl

/-- The pieces behind a non-empty part stay the same when the part is exchanged for one that ends in
the same name and consumes as many draws. -/
theorem Pieces.exchange {u u' v : Word} {ps' : List (Word × Nat)} (hu : u ≠ []) (hu' : u' ≠ [])
    (hlast : u.getLast?.map Symbol.name = u'.getLast?.map Symbol.name)
    (hlen : ps.length = u.length) (hlen' : ps'.length = u'.length)
    (h : gr.Pieces (u ++ v) g (ps ++ qs)) (h' : gr.Pieces (u' ++ v) g ps')
    (hdraws : consumed ps' = consumed ps) : gr.Pieces (u' ++ v) g (ps' ++ qs) := by
  intro i p hp
  by_cases hi : i < ps'.length
  · -- a position of the new part
    rw [List.getElem?_append_left hi] at hp
    rw [List.take_append_of_le_length (Nat.le_of_lt hi)]
    exact h' i p hp
  · -- a position behind it, which the old part had before it as well
    obtain ⟨j, rfl⟩ : ∃ j, i = ps'.length + j := ⟨i - ps'.length, by omega⟩
    rw [List.getElem?_append_right (by omega), Nat.add_sub_cancel_left] at hp
    obtain ⟨s, hs, hpiece⟩ := h (ps.length + j) p (by
      rw [List.getElem?_append_right (by omega), Nat.add_sub_cancel_left]
      exact hp)
    refine ⟨s, ?_, ?_⟩
    · -- both parts have as many pieces as symbols, so what stands behind them is in the same place
      rw [hlen, List.getElem?_append_right (by omega), Nat.add_sub_cancel_left] at hs
      rw [hlen', List.getElem?_append_right (by omega), Nat.add_sub_cancel_left]
      exact hs
    · -- the piece sees the same neighbours, and as many draws were consumed before it
      rw [List.take_length_add_append, consumed_append] at hpiece ⊢
      rw [hlen', ← neighboursAt_append hu hu' hlast, hdraws, ← hlen]
      exact hpiece

/-- **A step is parallel.** It succeeds exactly if every position has a piece, and then gives the
pieces one after the other; it fails exactly if some position has none, at the first such position.
What stands behind a non-empty part of the word derives the same when the part is exchanged for one
that ends in the same name and consumes as many draws. -/
theorem step_parallel (gr : Grammar) (g : σ) :
    (∀ w out g', gr.step w g = .ok (out, g') ↔
      ∃ ps, ps.length = w.length ∧ gr.Pieces w g ps ∧ out = ps.flatMap Prod.fst ∧
        g' = after g (consumed ps)) ∧
    (∀ w err, gr.step w g = .error err ↔
      ∃ ps s e, gr.StopsAfter w g ps s e ∧ err = .noValue s ps.length e) ∧
    ∀ u u' v ps ps' qs, u ≠ [] → u' ≠ [] →
      u.getLast?.map Symbol.name = u'.getLast?.map Symbol.name →
      ps.length = u.length → ps'.length = u'.length → qs.length = v.length →
      gr.Pieces (u ++ v) g (ps ++ qs) → gr.Pieces (u' ++ v) g ps' → consumed ps' = consumed ps →
      gr.step (u ++ v) g =
          .ok (ps.flatMap Prod.fst ++ qs.flatMap Prod.fst, after g (consumed ps + consumed qs)) ∧
        gr.step (u' ++ v) g =
          .ok (ps'.flatMap Prod.fst ++ qs.flatMap Prod.fst, after g (consumed ps + consumed qs)) := by
  refine ⟨fun w out g' => step_eq_ok_iff, fun w err => step_eq_error_iff, ?_⟩
  intro u u' v ps ps' qs hu hu' hlast hlen hlen' hqlen h h' hdraws
  constructor
  · -- the pieces of the whole word are those of its two parts
    exact step_eq_ok_iff.2 ⟨ps ++ qs, by simp [hlen, hqlen], h, by simp, by simp⟩
  · -- behind the exchanged part the old pieces stay, with as many draws before them
    exact step_eq_ok_iff.2 ⟨ps' ++ qs, by simp [hlen', hqlen],
      h.exchange hu hu' hlast hlen hlen' h' hdraws, by simp, by simp [hdraws]⟩

/-- Two tips draw one after the other, also behind a leaf that makes no draw. -/
theorem step_parallel_tips :
    let a : Symbol Float := ⟨"A", [], false⟩
    let b : Symbol Float := ⟨"B", [], false⟩
    let c : Symbol Float := ⟨"C", [], false⟩
    let leaf : Symbol Float := ⟨"L", [1.0], true⟩
    let shoot : Rule :=
      { predecessor := "A", weight := some 1.0,
        successor := [⟨"A", [], false⟩, ⟨"B", [], false⟩] }
    let bloom : Rule :=
      { predecessor := "A", weight := some 1.0, successor := [⟨"C", [], false⟩] }
    let gr : Grammar := { start := [a], groups := [("A", [shoot, bloom])] }
    let g : Replay := ⟨#[0.25, 0.75], 0⟩
    gr.step [a, a] g = .ok ([a, b, c], after g 2) ∧
      gr.step [leaf, a, a] g = .ok ([leaf, a, b, c], after g 2) := by
  intro a b c leaf shoot bloom gr g
  -- the pieces one by one, each after the draws of those before it
  have hshoot : gr.pieceAfter none [a, a] g [] 0 a = .ok ([a, b], 1) := by decide +kernel
  have hbloom : gr.pieceAfter (some "A") [a] (after g 1) [] 0 a = .ok ([c], 1) := by decide +kernel
  have hleaf : gr.pieceAfter none [leaf, a, a] g [] 0 leaf = .ok ([leaf], 0) := by decide +kernel
  have hshoot' : gr.pieceAfter (some "L") [a, a] g [] 0 a = .ok ([a, b], 1) := by decide +kernel
  have h : gr.Pieces [a, a] g [([a, b], 1), ([c], 1)] :=
    (piecesFrom_cons gr).2 ⟨hshoot, (piecesFrom_cons gr).2 ⟨hbloom, piecesFrom_nil gr⟩⟩
  have h' : gr.Pieces [leaf, a, a] g [([leaf], 0), ([a, b], 1)] :=
    (piecesFrom_cons gr).2 ⟨hleaf, (piecesFrom_cons gr).2 ⟨hshoot', piecesFrom_nil gr⟩⟩
  exact (step_parallel gr g).2.2 [a] [leaf, a] [a] [([a, b], 1)] [([leaf], 0), ([a, b], 1)]
    [([c], 1)] (List.cons_ne_nil _ _) (List.cons_ne_nil _ _) rfl rfl rfl rfl h h' rfl

end Grammar

end Arbor
