import Arbor.Proofs.Turtle.Branch
import Mathlib.Order.Bounds.Basic
import Mathlib.Data.List.Infix

/-!
# Ways back that lead nowhere

A turtle that is to go back, and has kept no pose to go back to, stays where it is, and the mistake is
put on record. How often that happens is a matter of the word alone (`Journey.unbalanced_counted`).
The deficit of a word is what it takes from the stack less what it puts there (`Table.deficit`); were
the stack to go below its ground, this would be how far. It does not, and each mistake makes up for
one step that it would have gone down. So there are as many mistakes as the greatest deficit of a
beginning of the word, the empty one included, and at the end there lies on the stack what the whole
word has put there, less what it has taken, and one pose more for each mistake.

A walk that is reflected at zero in this way has an invariant with two parts (`Journey.Reflected`):
mistakes and stack make up for the deficit, and the mistakes are the greatest deficit so far. One
symbol moves the deficit by one at most, and adds one beginning to those that count
(`Table.deficits_concat`). If that is a way back from the ground, the mistakes were as many as the
deficit, and both go up; else the deficit stays below the mistakes, by what lies on the stack.
-/

namespace Arbor

open Turtle

variable {α : Type}

/-! ### Deficits -/

/-- **Deficit.** What a word takes from the stack less what it puts there. -/
def Table.deficit (table : Table) (w : List (Symbol α)) : Int :=
  table.count .pop w - table.count .push w

/-- The deficits of all beginnings of a word. -/
def Table.deficits (table : Table) (w : List (Symbol α)) : Set Int :=
  {d | ∃ u, u <+: w ∧ table.deficit u = d}

/-- How many mistakes are ways back that lead nowhere. -/
def Drawing.unbalanced (d : Drawing α) : Nat :=
  d.mistakes.countP (·.cause.kind = .unbalanced)

/-- An empty word has no beginning but itself. -/
@[simp] theorem Table.deficits_nil (table : Table) :
    table.deficits ([] : List (Symbol α)) = {0} := by
  ext d
  simp [deficits, deficit, Table.count, eq_comm]

/-- A word with one symbol more has one beginning more, which is all of it. -/
theorem Table.deficits_concat (table : Table) (w : List (Symbol α)) (s : Symbol α) :
    table.deficits (w ++ [s]) = insert (table.deficit (w ++ [s])) (table.deficits w) := by
  ext d
  simp only [deficits, Set.mem_insert_iff, Set.mem_ofPred_eq, List.prefix_concat_iff, or_and_right,
    exists_or, exists_eq_left, eq_comm]

variable [Scalar α]

/-! ### One symbol -/

namespace Turtle

variable {setup : Setup α} {i : Nat} {s : Symbol α} {t t' : Turtle α} {o : Option Operation}

omit [Scalar α] in
/-- Other mistakes do not count. -/
theorem BalancedSince.unbalanced_eq (h : t.BalancedSince t') :
    t'.drawing.unbalanced = t.drawing.unbalanced := by
  obtain ⟨new, hnew, hkinds⟩ := h
  have hnone : new.countP (·.cause.kind = .unbalanced) = 0 :=
    Array.countP_eq_zero.2 fun m hm => by simpa using hkinds m hm
  rw [Drawing.unbalanced, hnew, Array.countP_append, hnone, Nat.add_zero, Drawing.unbalanced]

/-- From the ground no way leads back: the mistake is put on record, and nothing else changes. -/
theorem Step.of_popEmpty (h : Step setup i s t (some .pop) t') (hempty : t.stack = []) :
    t' = t.record .popEmpty i s := by
  cases h with
  | adjust operation => cases operation
  | popEmpty => rfl
  | pop kept =>
    rw [hempty] at kept
    cases kept

end Turtle

namespace Journey

variable {j : Journey α} {k : Nat}

/-- **The reflected walk** at position `k`, of a turtle that has come there. -/
structure Reflected (j : Journey α) (k : Nat) (t : Turtle α) : Prop where
  depth : (t.stack.length : Int) = t.drawing.unbalanced - j.table.deficit (j.word.take k)
  greatest : IsGreatest (j.table.deficits (j.word.take k)) t.drawing.unbalanced

/-- A fresh turtle has kept no pose. -/
theorem stack_of_initial {depth : Int} (h : Turtle.initial j.setup depth = .ok j.start) :
    j.start.stack = [] := by
  obtain ⟨frame, hstart⟩ := exists_of_initial h
  rw [hstart]

/-- How the deficit goes on. -/
theorem deficit_take_succ (hk : k < j.word.length) :
    j.table.deficit (j.word.take (k + 1)) =
      j.table.deficit (j.word.take k) + (if j.operation? k = some .pop then 1 else 0 : Nat) -
        (if j.operation? k = some .push then 1 else 0 : Nat) := by
  rw [Table.deficit, count_take_succ hk, count_take_succ hk, Table.deficit]
  omega

/-- A beginning that is one symbol longer has its own deficit to add. -/
theorem deficits_take_succ (hk : k < j.word.length) :
    j.table.deficits (j.word.take (k + 1)) =
      insert (j.table.deficit (j.word.take (k + 1))) (j.table.deficits (j.word.take k)) := by
  rw [List.take_add_one, List.getElem?_eq_getElem hk, Option.toList_some, Table.deficits_concat]

/-- **One symbol of the walk.** -/
theorem Reflected.step (hk : k < j.word.length) (h : j.Reflected k (j.turtle k))
    (hstep : Step j.setup k j.word[k] (j.turtle k) (j.operation? k) (j.turtle (k + 1))) :
    j.Reflected (k + 1) (j.turtle (k + 1)) := by
  have hdepth := h.depth
  have hdeficit := deficit_take_succ hk
  -- of the greatest deficit so far and the new one, the greater is the greatest
  have hgreatest := h.greatest.insert (j.table.deficit (j.word.take (k + 1)))
  rw [← deficits_take_succ hk] at hgreatest
  by_cases hground : j.operation? k = some .pop ∧ (j.turtle k).stack = []
  · -- the walk is reflected: mistakes and deficit were equal, and there is one more of both
    obtain ⟨hpop, hempty⟩ := hground
    have hrecord := (hpop ▸ hstep).of_popEmpty hempty
    have hmore : (j.turtle (k + 1)).drawing.unbalanced = (j.turtle k).drawing.unbalanced + 1 := by
      rw [hrecord]
      simp [Drawing.unbalanced, Mistake.Cause.kind]
    have hstack : (j.turtle (k + 1)).stack.length = 0 := by
      rw [hrecord, record_stack, hempty, List.length_nil]
    have hequal : (j.turtle k).stack.length = 0 := by rw [hempty, List.length_nil]
    rw [hpop, if_pos rfl, if_neg (by simp)] at hdeficit
    have hmax : max (j.table.deficit (j.word.take (k + 1))) (j.turtle k).drawing.unbalanced =
        (j.turtle (k + 1)).drawing.unbalanced := by omega
    exact ⟨by omega, hmax ▸ hgreatest⟩
  · -- the mistakes stay, and what lies on the stack keeps the deficit below them
    obtain ⟨inner, hstack, hlength, hsince⟩ :=
      hstep.exists_stack (List.append_nil _).symm fun hpop hempty => hground ⟨hpop, hempty⟩
    have hsame := hsince.unbalanced_eq
    rw [List.append_nil] at hstack
    rw [← hstack] at hlength
    have hmax : max (j.table.deficit (j.word.take (k + 1))) (j.turtle k).drawing.unbalanced =
        (j.turtle (k + 1)).drawing.unbalanced := by omega
    exact ⟨by omega, hmax ▸ hgreatest⟩

/-- **The walk along a journey.** -/
theorem reflected (h : j.Complete) (hstack : j.start.stack = []) (hdrawing : j.start.drawing = {}) :
    ∀ k, k ≤ j.word.length → j.Reflected k (j.turtle k) := by
  refine induction h ?_ fun k hk hstep ih => ih.step hk hstep
  have hnone : j.start.drawing.unbalanced = 0 := by rw [hdrawing]; rfl
  rw [turtle_zero]
  constructor
  · rw [hstack, hnone]
    rfl
  · rw [hnone, List.take_zero, Table.deficits_nil]
    exact isGreatest_singleton

/-- At the end of the word nothing of this changes. -/
theorem Reflected.close {t : Turtle α} (h : j.Reflected k t) (n : Nat) :
    j.Reflected k (t.close n) := by
  unfold Turtle.close
  cases t.outline with
  | none => exact h
  | some o =>
    have hsame : (t.record (.polygonLeftOpen o.size) n none).drawing.unbalanced =
        t.drawing.unbalanced := by
      simp [Drawing.unbalanced, Mistake.Cause.kind]
    exact ⟨hsame ▸ h.depth, hsame ▸ h.greatest⟩

/-- **Ways back that lead nowhere are counted exactly.** There are as many mistakes of that kind as the
greatest deficit of a beginning of the word; at the end there lies on the stack what the word has put
there less what it has taken, and one pose more for each mistake; and such a way back changes neither
the pose of the turtle nor its stack. -/
theorem unbalanced_counted {depth : Int} {t : Turtle α}
    (hfresh : Turtle.initial j.setup depth = .ok j.start)
    (hrun : j.start.run j.setup j.table j.word = (t, none)) :
    IsGreatest {d : Int | ∃ u, u <+: j.word ∧
      (j.table.count .pop u : Int) - j.table.count .push u = d} t.drawing.unbalanced ∧
    (t.stack.length : Int) =
      j.table.count .push j.word - j.table.count .pop j.word + t.drawing.unbalanced ∧
    ∀ k, j.operation? k = some .pop → (j.turtle k).stack = [] →
      ∃ s, j.word[k]? = some s ∧ j.turtle (k + 1) = (j.turtle k).record .popEmpty k s ∧
        (j.turtle (k + 1)).pose = (j.turtle k).pose ∧
        (j.turtle (k + 1)).stack = (j.turtle k).stack := by
  obtain ⟨hcomplete, rfl⟩ := of_run hrun
  obtain ⟨hstack, hdrawing⟩ : j.start.stack = [] ∧ j.start.drawing = {} :=
    ⟨stack_of_initial hfresh, (of_initial hfresh).2⟩
  have hend := (reflected hcomplete hstack hdrawing _ (Nat.le_refl _)).close j.word.length
  obtain ⟨hdepth, hgreatest⟩ := hend
  rw [List.take_length] at hdepth hgreatest
  -- the depth of the stack is the deficit put right by what was on record
  refine ⟨hgreatest, by rw [hdepth, Table.deficit]; omega, fun k hpop hempty => ?_⟩
  have hk := lt_of_operation? hpop
  -- the symbol at `k` is a way back from the ground
  have hrecord := (hpop ▸ step hcomplete hk).of_popEmpty hempty
  refine ⟨j.word[k], List.getElem?_eq_getElem hk, hrecord, ?_, ?_⟩
  · rw [hrecord, record_pose]
  · rw [hrecord, record_stack]

open scoped Grid in
/-- A way back before anything is kept, a branch, a patch that is named like the way back, and two
ways back too many after the branch. -/
theorem unbalanced_counted_thrice :
    let plain (name : String) : Symbol Int := ⟨name, [], false⟩
    let j := onGrid [plain "]", plain "[", plain "F", plain "]", ⟨"]", [], true⟩, plain "]",
      plain "]", plain "["]
    ∃ t, j.start.run j.setup j.table j.word = (t, none) ∧ t.drawing.unbalanced = 3 ∧
      t.stack.length = 1 ∧
      IsGreatest {d : Int | ∃ u, u <+: j.word ∧
        (j.table.count .pop u : Int) - j.table.count .push u = d} 3 ∧
      (j.turtle 1).pose = (j.turtle 0).pose := by
  intro plain j
  have hfault : (j.start.run j.setup j.table j.word).2 = none := by decide +kernel
  have hrun : j.start.run j.setup j.table j.word =
      ((j.start.run j.setup j.table j.word).1, none) := by rw [← hfault]
  have hmistakes : (j.start.run j.setup j.table j.word).1.drawing.unbalanced = 3 := by
    decide +kernel
  obtain ⟨hgreatest, hdepth, hpose⟩ := unbalanced_counted (initial_onGrid _) hrun
  obtain ⟨s, -, -, hsame, -⟩ := hpose 0 (by decide +kernel) rfl
  have hpushes : j.table.count .push j.word = 2 := by decide +kernel
  have hpops : j.table.count .pop j.word = 4 := by decide +kernel
  rw [hmistakes] at hgreatest hdepth
  rw [hpushes, hpops] at hdepth
  exact ⟨_, hrun, hmistakes, by omega, hgreatest, hsame⟩

end Journey

end Arbor
