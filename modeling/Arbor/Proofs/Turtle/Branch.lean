import Arbor.Proofs.Turtle.Journey
import Mathlib.Data.List.Infix

/-!
# Branches

A branch begins where the turtle keeps its pose and ends where it goes back to it. After the end the
turtle is as it was before the beginning, with the stack that it had (`branch_restores`), whatever
there is on the way: moves and turns, polygons begun and not ended, branches of its own. What is asked
of the way is that it is balanced (`Table.Balanced`); it may not go back further than it came from, in
no part of it. Symbols with a patch mark do not count, since they have no operation.

Induction needs more room than that, for a part of the way leaves open what it begins. So the lemma of
words (`exists_stack_executeFrom`) is about any part that does not reach below a base of the stack: the
base stays, and above it there is as much as was kept and not taken. The lemma of symbols
(`Step.exists_stack`) says the same of one symbol, and besides it that going back above the base is
never a mistake.
-/

namespace Arbor

variable {α : Type}

/-! ### Balanced words -/

/-- **Balanced words** go back as often as they keep a pose, and nowhere more often than before. -/
structure Table.Balanced (table : Table) (w : List (Symbol α)) : Prop where
  parts : ∀ u, u <+: w → table.count .pop u ≤ table.count .push u
  whole : table.count .pop w = table.count .push w

instance (table : Table) (w : List (Symbol α)) : Decidable (table.Balanced w) :=
  decidable_of_iff
    ((∀ u ∈ w.inits, table.count .pop u ≤ table.count .push u) ∧
      table.count .pop w = table.count .push w)
    ⟨fun h => ⟨fun u hu => h.1 u ((List.mem_inits u w).2 hu), h.2⟩,
      fun h => ⟨fun u hu => h.parts u ((List.mem_inits u w).1 hu), h.whole⟩⟩

theorem Table.count_nil (table : Table) (o : Operation) :
    table.count o ([] : List (Symbol α)) = 0 := rfl

/-- One symbol counts if it stands for the operation. -/
theorem Table.count_cons (table : Table) (o : Operation) (s : Symbol α) (w : List (Symbol α)) :
    table.count o (s :: w) = table.count o w + if table.operation? s = some o then 1 else 0 := by
  simp only [Table.count, List.countP_cons, decide_eq_true_eq]

namespace Turtle

/-- No mistake since is an unbalanced branch. -/
def BalancedSince (t t' : Turtle α) : Prop :=
  ∃ new : Array (Mistake α), t'.drawing.mistakes = t.drawing.mistakes ++ new ∧
    ∀ m ∈ new, m.cause.kind ≠ .unbalanced

/-- Where no mistake is made none is of a kind that would matter. -/
theorem BalancedSince.of_eq {t t' : Turtle α} (h : t'.drawing.mistakes = t.drawing.mistakes) :
    t.BalancedSince t' := by
  refine ⟨#[], ?_, fun m hm => absurd hm (Array.not_mem_empty m)⟩
  rw [h, Array.append_empty]

/-- What one piece of a word and the next one add to the mistakes. -/
theorem BalancedSince.trans {t₁ t₂ t₃ : Turtle α} (h : t₁.BalancedSince t₂)
    (h' : t₂.BalancedSince t₃) : t₁.BalancedSince t₃ := by
  obtain ⟨new, hnew, hkinds⟩ := h
  obtain ⟨new', hnew', hkinds'⟩ := h'
  refine ⟨new ++ new', ?_, fun m hm => ?_⟩
  · rw [hnew', hnew, Array.append_assoc]
  · exact (Array.mem_append.1 hm).elim (hkinds m) (hkinds' m)

variable [Scalar α] {setup : Setup α} {table : Table} {i : Nat} {s : Symbol α} {t t' : Turtle α}
  {o : Option Operation}

/-! ### Above a base of the stack -/

/-- Only an operation `pop` can be an unbalanced branch. -/
theorem Step.balancedSince (h : Step setup i s t o t') (hpop : o ≠ some .pop) :
    t.BalancedSince t' := by
  rcases h.mistakes_cases with heq | ⟨cause, op, rfl, hconcerns, hpush⟩
  · exact .of_eq heq
  · refine ⟨#[⟨cause, i, some s⟩], hpush, fun m hm hkind => ?_⟩
    obtain rfl := Array.mem_singleton.1 hm
    rw [show cause.kind = .unbalanced from hkind] at hconcerns
    cases op with
    | pop => exact hpop rfl
    | _ => cases hconcerns

/-- **One symbol above a base.** If it does not go back below the base, the base stays. -/
theorem Step.exists_stack {inner base : List (Pose α)} (h : Step setup i s t o t')
    (hstack : t.stack = inner ++ base) (hpop : o = some .pop → inner ≠ []) :
    ∃ inner', t'.stack = inner' ++ base ∧
      inner'.length + (if o = some .pop then 1 else 0) =
        inner.length + (if o = some .push then 1 else 0) ∧
      t.BalancedSince t' := by
  by_cases hopush : o = some .push
  · subst hopush
    -- the pose is laid on the stack above the base
    obtain rfl := h.of_push
    refine ⟨t.pose :: inner, ?_, rfl, .of_eq rfl⟩
    exact congrArg (t.pose :: ·) hstack
  · by_cases hopop : o = some .pop
    · subst hopop
      -- there is a pose of this piece of the word to go back to, so the base is not touched
      obtain ⟨pose, inner, rfl⟩ := List.exists_cons_of_ne_nil (hpop rfl)
      obtain rfl := h.of_pop hstack
      exact ⟨inner, rfl, rfl, .of_eq rfl⟩
    · refine ⟨inner, ?_, ?_, h.balancedSince hopop⟩
      · rw [h.stack_eq hopush hopop, hstack]
      · rw [if_neg hopush, if_neg hopop]

/-- **A word above a base.** What it keeps and does not take back lies on the base, which stays. -/
theorem exists_stack_executeFrom {w : List (Symbol α)} {inner base : List (Pose α)}
    (hstack : t.stack = inner ++ base)
    (hw : ∀ u, u <+: w → table.count .pop u ≤ inner.length + table.count .push u)
    (h : t.executeFrom setup table i w = (t', none)) :
    ∃ inner', t'.stack = inner' ++ base ∧
      inner'.length + table.count .pop w = inner.length + table.count .push w ∧
      t.BalancedSince t' := by
  induction w generalizing i t inner with
  | nil =>
    obtain rfl := (Prod.mk.inj h).1
    exact ⟨inner, hstack, rfl, .of_eq rfl⟩
  | cons s w ih =>
    obtain ⟨t₁, hexecute, hrest⟩ := executeFrom_cons_eq_none_iff.1 h
    have hstep := step_of_execute hexecute
    -- the first symbol alone is a part of the word, so it does not reach below the base
    have hpop : table.operation? s = some .pop → inner ≠ [] := by
      rintro hs rfl
      have hfirst := hw [s] ⟨w, rfl⟩
      simp [Table.count_cons, Table.count_nil, hs] at hfirst
    obtain ⟨inner₁, hstack₁, hlength₁, hsince₁⟩ := hstep.exists_stack hstack hpop
    -- what is asked of a part of the rest is asked of that part with the first symbol before it
    have hw₁ : ∀ u, u <+: w → table.count .pop u ≤ inner₁.length + table.count .push u := by
      intro u hu
      have hlonger := hw (s :: u) (List.cons_prefix_cons.2 ⟨rfl, hu⟩)
      rw [Table.count_cons, Table.count_cons] at hlonger
      omega
    obtain ⟨inner', hstack', hlength', hsince'⟩ := ih hstack₁ hw₁ hrest
    refine ⟨inner', hstack', ?_, hsince₁.trans hsince'⟩
    rw [Table.count_cons, Table.count_cons]
    omega

/-- **A branch restores the turtle.** After a pose is kept, a balanced word and the way back, pose and
stack are those from before, and none of the mistakes on the way is an unbalanced branch. -/
theorem branch_restores {b e : Symbol α} {w : List (Symbol α)}
    (hb : table.operation? b = some .push) (he : table.operation? e = some .pop)
    (hw : table.Balanced w) (h : t.executeFrom setup table i (b :: w ++ [e]) = (t', none)) :
    t'.pose = t.pose ∧ t'.stack = t.stack ∧ t.BalancedSince t' := by
  rw [List.cons_append] at h
  obtain ⟨t₁, hbegin, h⟩ := executeFrom_cons_eq_none_iff.1 h
  obtain ⟨t₂, hway, h⟩ := executeFrom_append_eq_none_iff.1 h
  obtain ⟨t₃, hend, hnil⟩ := executeFrom_cons_eq_none_iff.1 h
  obtain rfl : t₃ = t' := (Prod.mk.inj hnil).1
  have hpush := step_of_execute hbegin
  rw [hb] at hpush
  obtain rfl := hpush.of_push
  -- the kept pose and the stack below it are the base of the way
  have hparts : ∀ u, u <+: w →
      table.count .pop u ≤ ([] : List (Pose α)).length + table.count .push u := by
    intro u hu
    rw [List.length_nil, Nat.zero_add]
    exact hw.parts u hu
  obtain ⟨inner, hstack, hlength, hsince⟩ := exists_stack_executeFrom rfl hparts hway
  have hinner : inner = [] := by
    rw [← List.length_eq_zero_iff]
    have := hw.whole
    simp only [List.length_nil] at hlength
    omega
  subst hinner
  have hpop := step_of_execute hend
  rw [he] at hpop
  obtain rfl := hpop.of_pop hstack
  exact ⟨rfl, rfl, hsince.trans (.of_eq rfl)⟩

/-- A branch with a patch named like the way back, a branch of its own, a color, and a polygon begun
twice. -/
theorem branch_restores_leaf :
    let plain (name : String) : Symbol Float := ⟨name, [], false⟩
    let b := plain "["
    let e := plain "]"
    let w : List (Symbol Float) := [⟨"F", [2.0], false⟩, ⟨"]", [], true⟩, b, plain "'", plain "F", e,
      plain "\x7b", plain "\x7b"]
    let frame : Frame Float := ⟨⟨1.0, 0.0, 0.0⟩, ⟨0.0, 1.0, 0.0⟩, ⟨0.0, 0.0, 1.0⟩⟩
    let t : Turtle Float :=
      { pose := ⟨⟨3.0, 4.0, 0.0⟩, frame, 1.0, 5, 2⟩, stack := [⟨⟨0.0, 0.0, 0.0⟩, frame, 2.0, 0, 2⟩] }
    Table.standard.Balanced w ∧ ∃ t' : Turtle Float,
      t.executeFrom Setup.standard Table.standard 0 (b :: w ++ [e]) = (t', none) ∧
        t'.drawing.mistakes.size = 1 ∧ t'.pose = t.pose ∧ t'.stack = t.stack ∧
        t.BalancedSince t' := by
  intro plain b e w frame t
  have hw : Table.standard.Balanced w := by decide +kernel
  have hrun : t.executeFrom Setup.standard Table.standard 0 (b :: w ++ [e]) =
      ((t.executeFrom Setup.standard Table.standard 0 (b :: w ++ [e])).1, none) := rfl
  have hb : Table.standard.operation? b = some .push := by decide +kernel
  have he : Table.standard.operation? e = some .pop := by decide +kernel
  exact ⟨hw, _, hrun, rfl, branch_restores hb he hw hrun⟩

end Turtle

end Arbor
