import Arbor.Proofs.Turtle.Journey

/-!
# The account of polygons

No polygon is lost without a word. One that begins has four fates: it is drawn, it ends with too few
vertices, another begins in its place, or the word ends while it is open. The first leaves a polygon in
the drawing and each of the others a mistake, so there are as many beginnings as polygons and such
mistakes together. In the same way each end leaves a polygon or a mistake, and each vertex that is
submitted where no polygon is open leaves one (`Journey.polygons_accounted`).

On the way there is a term more: the polygon that is open has begun and not met its fate yet. With it
the account holds at every position (`Journey.Account`), and each symbol keeps it (`Account.step`); at
the end of the word the open polygon is dropped with the mistake that takes its place in the account.
-/

namespace Arbor

open Turtle

variable {α : Type} [Scalar α]

namespace Journey

variable {j : Journey α} {k : Nat}

/-- A mistake of the kind `degenerate` at a symbol with this operation. -/
def DegenerateAt (j : Journey α) (o : Operation) (m : Mistake α) : Prop :=
  m.cause.kind = .degenerate ∧ j.operation? m.position = some o

instance (o : Operation) (m : Mistake α) : Decidable (j.DegenerateAt o m) :=
  inferInstanceAs (Decidable (_ ∧ _))

/-- Whether a polygon is open before the symbol of position `k`. -/
def isOpen (j : Journey α) (k : Nat) : Bool := (j.turtle k).outline.isSome

/-- The positions before `k` where a vertex is submitted with no polygon open, with their symbols. -/
def outsides (j : Journey α) (k : Nat) : List (Nat × Option (Symbol α)) :=
  ((List.range k).filter fun n => j.operation? n = some .submitVertex ∧ ¬ j.isOpen n).map
    fun n => (n, j.word[n]?)

/-- **The account** at position `k`, of a turtle that has come there. -/
structure Account (j : Journey α) (k : Nat) (t : Turtle α) : Prop where
  begins : j.table.count .beginPolygon (j.word.take k) =
    t.drawing.polygons.size + t.drawing.mistakes.countP (·.cause.kind = .unclosed) +
      t.drawing.mistakes.countP (fun m => j.DegenerateAt .endPolygon m ∧ j.isOpen m.position) +
      t.outline.toList.length
  ends : j.table.count .endPolygon (j.word.take k) =
    t.drawing.polygons.size + t.drawing.mistakes.countP (j.DegenerateAt .endPolygon ·)
  submits : (t.drawing.mistakes.toList.filter (j.DegenerateAt .submitVertex ·)).map
      (fun m => (m.position, m.symbol)) = j.outsides k

/-- How the positions where a vertex is submitted with no polygon open go on. -/
theorem outsides_succ (hk : k < j.word.length) :
    j.outsides (k + 1) = j.outsides k ++
      if j.operation? k = some .submitVertex ∧ ¬ j.isOpen k then [(k, some j.word[k])] else [] := by
  have hsymbol : j.word[k]? = some j.word[k] := List.getElem?_eq_getElem hk
  rw [outsides, List.range_succ, List.filter_append, List.map_append, ← outsides]
  by_cases h : j.operation? k = some .submitVertex ∧ ¬ j.isOpen k
  · rw [List.filter_cons_of_pos (by simpa using h), if_pos h, List.filter_nil, List.map_singleton,
      hsymbol]
  · rw [List.filter_cons_of_neg (by simpa using h), if_neg h, List.filter_nil, List.map_nil]

/-! ### The account of one symbol -/

section Step

variable {t' : Turtle α}

/-- A symbol that is none of the three leaves the account as it is. -/
theorem Account.step_of_ne {o : Option Operation} (hk : k < j.word.length)
    (ho : j.operation? k = o) (h : j.Account k (j.turtle k))
    (hstep : Step j.setup k j.word[k] (j.turtle k) o t') (hbegin : o ≠ some .beginPolygon)
    (hsubmit : o ≠ some .submitVertex) (hend : o ≠ some .endPolygon) : j.Account (k + 1) t' := by
  have houtline := hstep.outline_eq hbegin hsubmit hend
  have hpolygons := hstep.polygons_eq hend
  have hcount := count_take_succ hk
  have houtsides := outsides_succ hk
  simp only [ho, hsubmit, false_and, if_false, List.append_nil] at hcount houtsides
  rcases hstep.mistakes_cases with hmistakes | ⟨cause, op, rfl, hconcerns, hmistakes⟩
  · constructor
    · rw [hcount, if_neg hbegin, h.begins, hpolygons, hmistakes, houtline]
      rfl
    · rw [hcount, if_neg hend, h.ends, hpolygons, hmistakes]
      rfl
    · rw [houtsides, hmistakes, h.submits]
  · -- the mistake is of another operation, so it is of no kind that is counted
    have hunclosed : cause.kind ≠ .unclosed := by
      intro hkind
      rw [hkind] at hconcerns
      cases op with
      | beginPolygon => exact hbegin rfl
      | _ => cases hconcerns
    have hdegenerate : cause.kind ≠ .degenerate := by
      intro hkind
      rw [hkind] at hconcerns
      cases op with
      | submitVertex => exact hsubmit rfl
      | endPolygon => exact hend rfl
      | _ => cases hconcerns
    constructor
    · rw [hcount, if_neg hbegin, h.begins, hpolygons, hmistakes, houtline]
      simp [DegenerateAt, hunclosed, hdegenerate]
    · rw [hcount, if_neg hend, h.ends, hpolygons, hmistakes]
      simp [DegenerateAt, hdegenerate]
    · rw [houtsides, hmistakes, ← h.submits]
      simp [DegenerateAt, hdegenerate]

/-- A beginning opens a polygon, and a mistake is the fate of one that was open. -/
theorem Account.step_of_begin (hk : k < j.word.length) (ho : j.operation? k = some .beginPolygon)
    (h : j.Account k (j.turtle k))
    (hstep : Step j.setup k j.word[k] (j.turtle k) (some .beginPolygon) t') :
    j.Account (k + 1) t' := by
  have hcount := count_take_succ hk
  have houtsides := outsides_succ hk
  simp only [ho] at hcount houtsides
  cases hstep with
  | adjust operation => cases operation
  | begins closed =>
    constructor
    · rw [hcount, h.begins, closed]
      simp
    · rw [hcount, h.ends]
      simp
    · rw [houtsides, ← h.submits]
      simp
  | begins_again isOpen =>
    -- what was open becomes a mistake, and what begins takes its place
    constructor
    · rw [hcount, h.begins, isOpen]
      simp [DegenerateAt, Mistake.Cause.kind]
      omega
    · rw [hcount, h.ends]
      simp [DegenerateAt, Mistake.Cause.kind]
    · rw [houtsides, ← h.submits]
      simp [DegenerateAt, Mistake.Cause.kind]

/-- A vertex changes the account only where no polygon is open. -/
theorem Account.step_of_submit (hk : k < j.word.length)
    (ho : j.operation? k = some .submitVertex) (h : j.Account k (j.turtle k))
    (hstep : Step j.setup k j.word[k] (j.turtle k) (some .submitVertex) t') :
    j.Account (k + 1) t' := by
  have hcount := count_take_succ hk
  have houtsides := outsides_succ hk
  simp only [ho] at hcount houtsides
  cases hstep with
  | adjust operation => cases operation
  | submits isOpen =>
    -- an open polygon goes on being open, with a vertex more
    constructor
    · rw [hcount, h.begins, isOpen]
      simp
    · rw [hcount, h.ends]
      simp
    · rw [houtsides, ← h.submits]
      simp [Journey.isOpen, isOpen]
  | submits_outside closed =>
    -- no polygon is there to take the vertex, and the new mistake says so
    constructor
    · rw [hcount, h.begins, closed]
      simp [DegenerateAt, Mistake.Cause.kind, ho, closed]
    · rw [hcount, h.ends]
      simp [DegenerateAt, Mistake.Cause.kind, ho]
    · rw [houtsides, ← h.submits]
      simp [DegenerateAt, Mistake.Cause.kind, ho, Journey.isOpen, closed]

/-- An end is a polygon in the drawing or a mistake, and either is the fate of one that was open. -/
theorem Account.step_of_end (hk : k < j.word.length) (ho : j.operation? k = some .endPolygon)
    (h : j.Account k (j.turtle k))
    (hstep : Step j.setup k j.word[k] (j.turtle k) (some .endPolygon) t') :
    j.Account (k + 1) t' := by
  have hcount := count_take_succ hk
  have houtsides := outsides_succ hk
  simp only [ho] at hcount houtsides
  cases hstep with
  | adjust operation => cases operation
  | ends isOpen large =>
    -- what was open becomes a polygon of the drawing
    constructor
    · rw [hcount, h.begins, isOpen]
      simp
      omega
    · rw [hcount, h.ends]
      simp
      omega
    · rw [houtsides, ← h.submits]
      simp
  | ends_small isOpen small =>
    -- what was open becomes a mistake, which counts as a fate since a polygon is open here
    constructor
    · rw [hcount, h.begins, isOpen]
      simp [DegenerateAt, Mistake.Cause.kind, ho, Journey.isOpen, isOpen]
      omega
    · rw [hcount, h.ends]
      simp [DegenerateAt, Mistake.Cause.kind, ho]
      omega
    · rw [houtsides, ← h.submits]
      simp [DegenerateAt, Mistake.Cause.kind, ho]
  | ends_none closed =>
    -- the mistake counts for the end, but is the fate of nothing
    constructor
    · rw [hcount, h.begins, closed]
      simp [DegenerateAt, Mistake.Cause.kind, ho, Journey.isOpen, closed]
    · rw [hcount, h.ends]
      simp [DegenerateAt, Mistake.Cause.kind, ho]
      omega
    · rw [houtsides, ← h.submits]
      simp [DegenerateAt, Mistake.Cause.kind, ho]

end Step

/-- **The account of one symbol.** -/
theorem Account.step (hk : k < j.word.length) (h : j.Account k (j.turtle k))
    (hstep : Step j.setup k j.word[k] (j.turtle k) (j.operation? k) (j.turtle (k + 1))) :
    j.Account (k + 1) (j.turtle (k + 1)) := by
  by_cases hbegin : j.operation? k = some .beginPolygon
  · exact h.step_of_begin hk hbegin (hbegin ▸ hstep)
  by_cases hsubmit : j.operation? k = some .submitVertex
  · exact h.step_of_submit hk hsubmit (hsubmit ▸ hstep)
  by_cases hend : j.operation? k = some .endPolygon
  · exact h.step_of_end hk hend (hend ▸ hstep)
  exact h.step_of_ne hk rfl hstep hbegin hsubmit hend

/-! ### The account of a word -/

/-- **The account along a journey.** -/
theorem account (h : j.Complete) (houtline : j.start.outline = none)
    (hdrawing : j.start.drawing = {}) :
    ∀ k, k ≤ j.word.length → j.Account k (j.turtle k) := by
  refine induction h ?_ fun k hk hstep ih => ih.step hk hstep
  rw [turtle_zero]
  constructor
  · rw [houtline, hdrawing]
    rfl
  · rw [hdrawing]
    rfl
  · rw [hdrawing]
    rfl

/-- A polygon that is dropped at the end of the word is replaced by a mistake. -/
theorem Account.close {t : Turtle α} (h : j.Account k t) (n : Nat) : j.Account k (t.close n) := by
  unfold Turtle.close
  cases houtline : t.outline with
  | none => exact h
  | some o =>
    constructor
    · rw [h.begins, houtline]
      simp [DegenerateAt, Mistake.Cause.kind]
      omega
    · rw [h.ends]
      simp [DegenerateAt, Mistake.Cause.kind]
    · rw [← h.submits]
      simp [DegenerateAt, Mistake.Cause.kind]

/-- **No polygon is lost without a word.** There are as many beginnings as polygons drawn, mistakes of
polygons that were not ended, and mistakes at an end while one was open; as many ends as polygons drawn
and mistakes at an end; and a mistake for each vertex submitted while no polygon was open, in their
order, and for no other. After the word no polygon is open. -/
theorem polygons_accounted {depth : Int} {t : Turtle α}
    (hfresh : Turtle.initial j.setup depth = .ok j.start)
    (hrun : j.start.run j.setup j.table j.word = (t, none)) :
    j.table.count .beginPolygon j.word =
      t.drawing.polygons.size + t.drawing.mistakes.countP (·.cause.kind = .unclosed) +
        t.drawing.mistakes.countP (fun m => j.DegenerateAt .endPolygon m ∧ j.isOpen m.position) ∧
    j.table.count .endPolygon j.word =
      t.drawing.polygons.size + t.drawing.mistakes.countP (j.DegenerateAt .endPolygon ·) ∧
    (t.drawing.mistakes.toList.filter (j.DegenerateAt .submitVertex ·)).map
      (fun m => (m.position, m.symbol)) = j.outsides j.word.length ∧
    t.outline = none := by
  obtain ⟨houtline, hdrawing⟩ := of_initial hfresh
  obtain ⟨hcomplete, rfl⟩ := of_run hrun
  have haccount := (account hcomplete houtline hdrawing _ (Nat.le_refl _)).close j.word.length
  have hbegins := haccount.begins
  -- the account is of all the symbols, and no polygon is open any more
  have hends := haccount.ends
  rw [List.take_length] at hbegins hends
  rw [close_outline] at hbegins
  exact ⟨hbegins, hends, haccount.submits, close_outline ..⟩

open scoped Grid in
/-- A corner that is drawn, a polygon begun anew, one too small, an end and a vertex with no polygon
open, and a polygon that is left open. -/
theorem polygons_accounted_fates :
    let plain (name : String) : Symbol Int := ⟨name, [], false⟩
    let j := onGrid [plain "\x7b", plain "F", plain ".", plain "+", plain "F", plain ".", plain "\x7d",
      plain "\x7b", plain "\x7b", plain "\x7d", plain "\x7d", plain ".", plain "\x7b"]
    ∃ t, j.start.run j.setup j.table j.word = (t, none) ∧
      t.drawing.mistakes.toList.map (·.cause) =
        [.polygonReopened 1, .polygonTooSmall 1, .polygonNotOpen, .vertexOutside, .polygonLeftOpen 1] ∧
      j.table.count .beginPolygon j.word =
        t.drawing.polygons.size + t.drawing.mistakes.countP (·.cause.kind = .unclosed) +
          t.drawing.mistakes.countP (fun m => j.DegenerateAt .endPolygon m ∧ j.isOpen m.position) ∧
      j.table.count .endPolygon j.word =
        t.drawing.polygons.size + t.drawing.mistakes.countP (j.DegenerateAt .endPolygon ·) ∧
      t.outline = none := by
  intro plain j
  have hfault : (j.start.run j.setup j.table j.word).2 = none := by decide +kernel
  have hrun : j.start.run j.setup j.table j.word =
      ((j.start.run j.setup j.table j.word).1, none) := by rw [← hfault]
  obtain ⟨hbegins, hends, -, hclosed⟩ := polygons_accounted (initial_onGrid _) hrun
  exact ⟨_, hrun, by decide +kernel, hbegins, hends, hclosed⟩

end Journey

end Arbor
