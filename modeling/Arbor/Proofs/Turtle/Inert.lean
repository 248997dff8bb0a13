import Arbor.Proofs.Turtle.Pieces
import Mathlib.Data.Nat.Count

/-!
# Symbols that do nothing

A symbol whose name is not in the table, or is there for nothing, may be taken out of a word, and nobody
can tell from the drawing (`Journey.run_leavingOut`). The turtle goes through the same states, draws the
same and makes the same mistakes; only the positions of these are less, each by the number of symbols
taken out before it, and where there was a fault it is the same one, at the same symbol. A symbol with a
patch mark is none of them, whatever its name, since it stands for no operation and places a patch.

Words are cut down by a set of positions (`leavingOut`), so that of two equal symbols one may go and the
other stay. The two words are executed side by side. At a symbol that stays both turtles do the same but
for the position that they count, and this is a recounting (`Turtle.reads_recounting`); at one that goes
the one turtle does nothing, and the other has no symbol there. What holds the two counts together is
that the new position of a symbol (`positionAfter`) grows by one after a symbol that stays and not at all after
one that goes.
-/

namespace Arbor

open Turtle

variable {α : Type}

/-! ### Words with some symbols taken out -/

section LeavingOut

variable (gone : Nat → Prop) [DecidablePred gone]

/-- A word without the symbols of some positions, where `i` is the position of its first symbol. -/
def leavingOut (i : Nat) (w : List (Symbol α)) : List (Symbol α) :=
  ((w.zipIdx i).filter fun p => ¬ gone p.2).map Prod.fst

/-- The new position of a symbol: the old one less the number of positions before it that are gone. -/
def positionAfter (k : Nat) : Nat := k - Nat.count gone k

variable {gone} {i k : Nat}

/-- After a symbol that goes the new position is the one before it. -/
theorem positionAfter_succ_of_gone (h : gone k) :
    positionAfter gone (k + 1) = positionAfter gone k := by
  rw [positionAfter, positionAfter, Nat.count_succ, if_pos h, Nat.add_sub_add_right]

/-- After a symbol that stays the new position is the next one. -/
theorem positionAfter_succ_of_not_gone (h : ¬ gone k) :
    positionAfter gone (k + 1) = positionAfter gone k + 1 := by
  rw [positionAfter, positionAfter, Nat.count_succ, if_neg h]
  exact Nat.succ_sub (Nat.count_le gone)

/-- A first symbol that goes leaves the rest. -/
theorem leavingOut_cons_of_gone (h : gone i) (s : Symbol α) (w : List (Symbol α)) :
    leavingOut gone i (s :: w) = leavingOut gone (i + 1) w := by
  rw [leavingOut, List.zipIdx_cons, List.filter_cons_of_neg (by simpa using h), leavingOut]

/-- A first symbol that stays is the first symbol of what is left. -/
theorem leavingOut_cons_of_not_gone (h : ¬ gone i) (s : Symbol α) (w : List (Symbol α)) :
    leavingOut gone i (s :: w) = s :: leavingOut gone (i + 1) w := by
  rw [leavingOut, List.zipIdx_cons, List.filter_cons_of_pos (by simpa using h), List.map_cons,
    leavingOut]

/-- Words in two pieces are cut down piece by piece. -/
theorem leavingOut_append (u v : List (Symbol α)) :
    leavingOut gone i (u ++ v) = leavingOut gone i u ++ leavingOut gone (i + u.length) v := by
  rw [leavingOut, List.zipIdx_append, List.filter_append, List.map_append, leavingOut, leavingOut]

/-- The symbols that stay are those that the new positions count. -/
theorem positionAfter_add_length (i : Nat) (w : List (Symbol α)) :
    positionAfter gone (i + w.length) = positionAfter gone i + (leavingOut gone i w).length := by
  induction w generalizing i with
  | nil => rfl
  | cons s w ih =>
    rw [List.length_cons, Nat.add_comm w.length, ← Nat.add_assoc, ih]
    by_cases h : gone i
    · rw [leavingOut_cons_of_gone h, positionAfter_succ_of_gone h]
    · rw [leavingOut_cons_of_not_gone h, positionAfter_succ_of_not_gone h, List.length_cons]
      omega

/-- What is left of a word is as long as its end is far in the new positions. -/
theorem length_leavingOut (w : List (Symbol α)) :
    (leavingOut gone 0 w).length = positionAfter gone w.length := by
  have hlength : positionAfter gone (0 + w.length) =
      positionAfter gone 0 + (leavingOut gone 0 w).length := positionAfter_add_length 0 w
  rw [Nat.zero_add] at hlength
  rw [hlength, positionAfter, Nat.zero_sub, Nat.zero_add]

end LeavingOut

variable [Scalar α] {gone : Nat → Prop} [DecidablePred gone]

/-! ### Both words side by side -/

namespace Turtle

variable (setup : Setup α) {table : Table} {i : Nat} {w : List (Symbol α)} {s : Symbol α}

/-- A symbol that stands for nothing is executed without an effect. -/
theorem execute_of_ignore (h : table.operation? s = some .ignore) (t : Turtle α) :
    t.execute setup table i s = .ok t := execute_of_operation? h

/-- **A word with some symbols taken out** is executed as the word is, under the new positions. -/
theorem executeFrom_leavingOut (past : Array (Mistake α)) (t : Turtle α)
    (hinert : ∀ n s, w[n]? = some s → gone (i + n) → table.operation? s = some .ignore) :
    (t.recounted past (positionAfter gone)).executeFrom setup table (positionAfter gone i)
        (leavingOut gone i w) =
      ((t.executeFrom setup table i w).1.recounted past (positionAfter gone),
        (t.executeFrom setup table i w).2) := by
  induction w generalizing i t with
  | nil => rfl
  | cons s w ih =>
    -- what is asked of the rest is asked of it one position later
    have hrest : ∀ n s, w[n]? = some s → gone (i + 1 + n) →
        table.operation? s = some .ignore := by
      intro n s hs hgone
      rw [Nat.add_assoc, Nat.add_comm 1] at hgone
      exact hinert (n + 1) s hs hgone
    by_cases hgone : gone i
    · -- the symbol goes: neither turtle does anything
      have hexecute : t.execute setup table i s = .ok t :=
        execute_of_ignore setup (hinert 0 s rfl hgone) t
      rw [leavingOut_cons_of_gone hgone, ← positionAfter_succ_of_gone hgone, executeFrom, hexecute]
      exact ih t hrest
    · -- the symbol stays: the one turtle does what the other does, recounted
      have hexecute := t.execute_relabelled (reads_recounting past (positionAfter gone) table i s)
        setup
      rw [relabelled_recounting] at hexecute
      rw [leavingOut_cons_of_not_gone hgone, executeFrom, executeFrom, hexecute]
      cases t.execute setup table i s with
      | error fault => rfl
      | ok t₁ =>
        simp only [Except.map, relabelled_recounting, ← positionAfter_succ_of_not_gone hgone]
        exact ih t₁ hrest

omit [Scalar α] in
/-- A turtle with nothing on record has nothing to be recounted. -/
theorem recounted_of_mistakes {t : Turtle α} (h : t.drawing.mistakes = #[]) (f : Nat → Nat) :
    t.recounted #[] f = t := by
  rw [recounted, h, Array.map_empty, Array.append_empty, ← h]

end Turtle

namespace Journey

/-- The journey along the word with some symbols taken out. -/
def leavingOut (gone : Nat → Prop) [DecidablePred gone] (j : Journey α) : Journey α :=
  { j with word := Arbor.leavingOut gone 0 j.word }

variable {j : Journey α} {k : Nat} {fault : Fault}

/-- A symbol that stays cuts the new word in two, as it cuts the old one. -/
theorem word_leavingOut (hk : k < j.word.length) (hstays : ¬ gone k) :
    (j.leavingOut gone).word = Arbor.leavingOut gone 0 (j.word.take k) ++
      j.word[k] :: Arbor.leavingOut gone (k + 1) (j.word.drop (k + 1)) := by
  calc (j.leavingOut gone).word
      = Arbor.leavingOut gone 0 (j.word.take k ++ j.word[k] :: j.word.drop (k + 1)) := by
        rw [List.getElem_cons_drop, List.take_append_drop]
        rfl
    _ = _ := by
        rw [leavingOut_append, List.length_take_of_le (Nat.le_of_lt hk), Nat.zero_add,
          leavingOut_cons_of_not_gone hstays]

/-- What is before a symbol of the old word has its new position for its length. -/
theorem length_leavingOut_take (hk : k ≤ j.word.length) :
    (Arbor.leavingOut gone 0 (j.word.take k)).length = positionAfter gone k := by
  rw [length_leavingOut, List.length_take_of_le hk]

/-- A symbol that stays is found at its new position. -/
theorem getElem?_leavingOut (hk : k < j.word.length) (hstays : ¬ gone k) :
    (j.leavingOut gone).word[positionAfter gone k]? = j.word[k]? := by
  rw [word_leavingOut hk hstays, ← length_leavingOut_take (Nat.le_of_lt hk),
    List.getElem?_append_right (Nat.le_refl _), Nat.sub_self, List.getElem?_eq_getElem hk]
  rfl

section

variable (hstart : j.start.drawing.mistakes = #[])
  (hinert : ∀ k, k < j.word.length → gone k → j.operation? k = some .ignore)

include hstart hinert

/-- What is left of the word up to a position is executed as that part of the word is. -/
theorem executeFrom_take_leavingOut (hk : k ≤ j.word.length) :
    j.start.executeFrom j.setup j.table 0 (Arbor.leavingOut gone 0 (j.word.take k)) =
      ((j.turtle k).recounted #[] (positionAfter gone),
        (j.start.executeFrom j.setup j.table 0 (j.word.take k)).2) := by
  -- a symbol of the first part is one of the whole word
  have hpart : ∀ n s, (j.word.take k)[n]? = some s → gone (0 + n) →
      j.table.operation? s = some .ignore := by
    intro n s hs hgone
    have hn : n < k := by
      have hlength := (List.getElem?_eq_some_iff.1 hs).1
      rwa [List.length_take_of_le hk] at hlength
    rw [Nat.zero_add] at hgone
    rw [List.getElem?_take_of_lt hn] at hs
    have hoperation := hinert n (Nat.lt_of_lt_of_le hn hk) hgone
    rwa [operation?, hs, Option.bind_some] at hoperation
  have hword := executeFrom_leavingOut j.setup #[] j.start hpart
  rwa [recounted_of_mistakes hstart] at hword

/-- **The same fault** comes from the same symbol. -/
theorem EndsAt.leavingOut (h : j.EndsAt k fault) :
    (j.leavingOut gone).EndsAt (positionAfter gone k) fault ∧
      (j.leavingOut gone).word[positionAfter gone k]? = j.word[k]? := by
  obtain ⟨hreaches, s, hs, hfault⟩ := h
  obtain ⟨hk, rfl⟩ := List.getElem?_eq_some_iff.1 hs
  -- the symbol is at fault, so it is not one of those that do nothing
  have hstays : ¬ gone k := by
    intro hgone
    have hoperation := hinert k hk hgone
    rw [operation?_of_lt hk] at hoperation
    rw [execute_of_ignore j.setup hoperation] at hfault
    cases hfault
  have hsymbol := getElem?_leavingOut hk hstays
  have hbefore : (j.leavingOut gone).start.executeFrom (j.leavingOut gone).setup
      (j.leavingOut gone).table 0 ((j.leavingOut gone).word.take (positionAfter gone k)) =
        ((j.turtle k).recounted #[] (positionAfter gone), none) := by
    rw [word_leavingOut hk hstays, ← length_leavingOut_take (Nat.le_of_lt hk), List.take_left]
    exact (executeFrom_take_leavingOut hstart hinert (Nat.le_of_lt hk)).trans
      (Prod.ext rfl hreaches)
  have hturtle : (j.leavingOut gone).turtle (positionAfter gone k) =
      (j.turtle k).recounted #[] (positionAfter gone) := congrArg Prod.fst hbefore
  -- both turtles are at the same symbol, so both meet the fault
  have hexecute := (j.turtle k).execute_relabelled
    (reads_recounting #[] (positionAfter gone) j.table k j.word[k]) j.setup
  rw [relabelled_recounting, hfault, ← hturtle] at hexecute
  exact ⟨⟨congrArg Prod.snd hbefore, j.word[k], hsymbol.trans hs, hexecute⟩, hsymbol⟩

end

/-- **Symbols that do nothing** may be taken out of a word. A fresh turtle runs the rest to the same
outcome: to the same state, stack and drawing, with the same mistakes under their new positions, and if
there is a fault, to the same one at the same symbol. -/
theorem run_leavingOut {depth : Int} (hfresh : Turtle.initial j.setup depth = .ok j.start)
    (hinert : ∀ k, k < j.word.length → gone k → j.operation? k = some .ignore) :
    j.start.run j.setup j.table (j.leavingOut gone).word =
      ((j.start.run j.setup j.table j.word).1.recounted #[] (positionAfter gone),
        (j.start.run j.setup j.table j.word).2) ∧
    ∀ fault, (j.start.run j.setup j.table j.word).2 = some fault →
      ∃ k, j.EndsAt k fault ∧ (j.leavingOut gone).EndsAt (positionAfter gone k) fault ∧
        (j.leavingOut gone).word[positionAfter gone k]? = j.word[k]? := by
  have hstart : j.start.drawing.mistakes = #[] := by rw [(of_initial hfresh).2]
  constructor
  · have hword := executeFrom_take_leavingOut hstart hinert (Nat.le_refl _)
    rw [List.take_length] at hword
    unfold run
    rw [Journey.leavingOut, hword, length_leavingOut]
    -- the outcome of the whole word is taken apart, with its fault or without one
    generalize houtcome : j.start.executeFrom j.setup j.table 0 j.word = outcome
    have hturtle : j.turtle j.word.length = outcome.1 := by
      rw [turtle, List.take_length, houtcome]
    rw [hturtle]
    obtain ⟨t, fault | fault⟩ := outcome
    · exact Prod.ext (close_recounted ..) rfl
    · rfl
  · intro fault hfault
    -- the position is that of the fault, and the shorter word has the same symbol there
    obtain ⟨k, hends, -⟩ := exists_endsAt (Prod.ext rfl hfault)
    exact ⟨k, hends, hends.leavingOut hstart hinert⟩

open scoped Grid in
/-- Two names that are not in the table go, and a patch of the same name stays. The mistakes are an
unbalanced branch before and after, and a polygon left open at the end; in the other word there is a turn
that is no quarter turn. -/
theorem run_leavingOut_unmapped :
    let plain (name : String) : Symbol Int := ⟨name, [], false⟩
    let word := [plain "x", plain "]", plain "x", ⟨"x", [], true⟩, plain "F", plain "]", plain "\x7b"]
    let gone (k : Nat) : Prop := k = 0 ∨ k = 2
    let positions (t : Turtle Int) := t.drawing.mistakes.toList.map (·.position)
    let j := onGrid word
    let stopped := onGrid (word ++ [⟨"+", [45], false⟩, plain "F"])
    (∃ t t', j.start.run j.setup j.table j.word = (t, none) ∧
      j.start.run j.setup j.table [plain "]", ⟨"x", [], true⟩, plain "F", plain "]", plain "\x7b"] =
        (t', none) ∧
      positions t = [1, 5, 7] ∧ positions t' = [0, 3, 5] ∧ t' = t.recounted #[] (positionAfter gone)) ∧
    ∃ k, stopped.EndsAt k .infiniteAngle ∧
      (stopped.leavingOut gone).EndsAt (positionAfter gone k) .infiniteAngle := by
  intro plain word gone positions j stopped
  have hj : j.start.run j.setup j.table j.word =
      ((j.start.run j.setup j.table j.word).1, none) := Prod.ext rfl (by decide +kernel)
  have hinert : ∀ k, k < j.word.length → gone k → j.operation? k = some .ignore := by
    decide +kernel
  obtain ⟨hrun, -⟩ := run_leavingOut (initial_onGrid word) hinert
  have hstopped : (stopped.start.run stopped.setup stopped.table stopped.word).2 =
      some .infiniteAngle := by decide +kernel
  have hinert' : ∀ k, k < stopped.word.length → gone k → stopped.operation? k = some .ignore := by
    decide +kernel
  obtain ⟨-, hfault⟩ := run_leavingOut (initial_onGrid _) hinert'
  obtain ⟨k, hends, hends', -⟩ := hfault _ hstopped
  rw [hj] at hrun
  exact ⟨⟨_, _, hj, hrun, by decide +kernel, by decide +kernel, rfl⟩, k, hends, hends'⟩

end Journey

end Arbor
