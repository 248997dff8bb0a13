import Arbor.Proofs.Turtle.Journey

/-!
# The record of mistakes

A mistake is put on record where it is made, and the drawing goes on as if nothing had been
(`Journey.mistakes_located`). On the record the mistakes stand in the order of their positions, no two
at the same one, each with the symbol that stands there in the word. The end of the word may add one
more: a polygon that was left open. It comes last, under the position after the last symbol, and no
symbol goes with it.

A record that is kept in order is one that is only written at its end, by a symbol whose position is
beyond those on it. This is the invariant (`Journey.Located`), and one symbol keeps it, since it puts
down one mistake at most and that under its own position (`Turtle.Step.mistakes_cases`). That the symbol
of a mistake is what the word has at its position needs no case for the end of the word, where the word
has nothing and the mistake has no symbol.

Lines, polygons and patches are written in the same way. So what is drawn at one position is part of
what is drawn at any later one (`Drawing.PartOf`), whether or not there is a fault between
(`Journey.partOf_turtle`).
-/

namespace Arbor

open Turtle

variable {α : Type}

/-! ### Drawings that go on -/

/-- **Parts.** All that the one drawing has, the other has too, at the same places and with nothing
between. -/
structure Drawing.PartOf (d d' : Drawing α) : Prop where
  lines : d.lines.toList <+: d'.lines.toList
  polygons : d.polygons.toList <+: d'.polygons.toList
  patches : d.patches.toList <+: d'.patches.toList
  mistakes : d.mistakes.toList <+: d'.mistakes.toList

namespace Drawing.PartOf

variable {d₁ d₂ d₃ : Drawing α}

theorem refl (d : Drawing α) : d.PartOf d :=
  ⟨List.prefix_rfl, List.prefix_rfl, List.prefix_rfl, List.prefix_rfl⟩

/-- Parts of parts are parts. -/
theorem trans (h : d₁.PartOf d₂) (h' : d₂.PartOf d₃) : d₁.PartOf d₃ :=
  ⟨h.lines.trans h'.lines, h.polygons.trans h'.polygons, h.patches.trans h'.patches,
    h.mistakes.trans h'.mistakes⟩

end Drawing.PartOf

/-- Adding at the end of an array takes nothing back. -/
theorem toList_prefix_push {β : Type} (bs : Array β) (b : β) :
    bs.toList <+: (bs.push b).toList := by
  rw [Array.toList_push]
  exact List.prefix_append _ _

namespace Turtle

variable (t : Turtle α)

/-- A mistake put on record leaves the rest of the drawing as it is. -/
theorem partOf_record (cause : Mistake.Cause α) (i : Nat) (s : Option (Symbol α)) :
    t.drawing.PartOf (t.record cause i s).drawing :=
  { Drawing.PartOf.refl t.drawing with mistakes := toList_prefix_push _ _ }

/-- A polygon is added to the polygons, and the rest stays. -/
theorem partOf_addPolygon (p : Polygon α) : t.drawing.PartOf (t.addPolygon p).drawing :=
  { Drawing.PartOf.refl t.drawing with polygons := toList_prefix_push _ _ }

/-- The end of a word. -/
theorem partOf_close (n : Nat) : t.drawing.PartOf (t.close n).drawing := by
  unfold close
  cases t.outline with
  | none => exact .refl _
  | some o => exact t.partOf_record ..

variable [Scalar α]

/-- A move adds a line or nothing. -/
theorem partOf_move (distance : α) (draw : Bool) :
    t.drawing.PartOf (t.move distance draw).drawing := by
  cases draw with
  | false => exact .refl _
  | true => exact { Drawing.PartOf.refl t.drawing with lines := toList_prefix_push _ _ }

/-- A patch is added to the patches, and the rest stays. -/
theorem partOf_place (s : Symbol α) : t.drawing.PartOf (t.place s).drawing :=
  { Drawing.PartOf.refl t.drawing with patches := toList_prefix_push _ _ }

/-- **One symbol** takes nothing back. -/
theorem Step.partOf {setup : Setup α} {i : Nat} {s : Symbol α} {t t' : Turtle α}
    {o : Option Operation} (h : Step setup i s t o t') : t.drawing.PartOf t'.drawing := by
  -- each step adds to one of the four lists or to none
  cases h with
  | place => exact t.partOf_place s
  | move => exact t.partOf_move ..
  | ends => exact partOf_addPolygon { t with outline := none } _
  | overflow | popEmpty | begins_again | submits_outside | ends_none => exact t.partOf_record ..
  | ends_small => exact partOf_record { t with outline := none } ..
  | _ => exact .refl _

end Turtle

variable [Scalar α]

namespace Journey

variable {j : Journey α} {k n : Nat}

/-- **A journey** takes nothing back. -/
theorem partOf_turtle (h : k ≤ n) : (j.turtle k).drawing.PartOf (j.turtle n).drawing := by
  induction n, h using Nat.le_induction with
  | base => exact .refl _
  | succ n _ ih =>
    by_cases hn : j.Executes n
    · exact ih.trans (step_of_executes hn.1 hn).partOf
    · rw [turtle_succ_of_not_executes hn]
      exact ih

/-! ### The record at a position -/

/-- **The record** before the symbol of position `k`. -/
structure Located (j : Journey α) (k : Nat) (ms : Array (Mistake α)) : Prop where
  increasing : ms.toList.Pairwise fun m m' => m.position < m'.position
  /-- All mistakes are of symbols before. -/
  lt : ∀ m ∈ ms, m.position < k
  /-- The symbol of a mistake is the one at its position, if there is one. -/
  symbol : ∀ m ∈ ms, m.symbol = j.word[m.position]?

/-- A record that ends before one position ends before any later one. -/
theorem Located.mono {ms : Array (Mistake α)} (h : j.Located k ms) (hkn : k ≤ n) : j.Located n ms :=
  ⟨h.increasing, fun m hm => Nat.lt_of_lt_of_le (h.lt m hm) hkn, h.symbol⟩

/-- A mistake of the next symbol goes to the end of the record. -/
theorem Located.push {ms : Array (Mistake α)} (h : j.Located k ms) (cause : Mistake.Cause α) :
    j.Located (k + 1) (ms.push ⟨cause, k, j.word[k]?⟩) := by
  refine ⟨?_, ?_, ?_⟩
  · -- all mistakes so far are of symbols before this one
    rw [Array.toList_push, List.pairwise_append]
    refine ⟨h.increasing, List.pairwise_singleton _ _, fun m hm m' hm' => ?_⟩
    rw [List.mem_singleton.1 hm']
    exact h.lt m (Array.mem_toList_iff.1 hm)
  · intro m hm
    rcases Array.mem_push.1 hm with hm | rfl
    · exact Nat.lt_succ_of_lt (h.lt m hm)
    · exact Nat.lt_succ_self k
  · intro m hm
    rcases Array.mem_push.1 hm with hm | rfl
    · exact h.symbol m hm
    · rfl

/-- **One symbol of the record.** -/
theorem Located.step (hk : k < j.word.length) (h : j.Located k (j.turtle k).drawing.mistakes)
    (hstep : Step j.setup k j.word[k] (j.turtle k) (j.operation? k) (j.turtle (k + 1))) :
    j.Located (k + 1) (j.turtle (k + 1)).drawing.mistakes := by
  have hsymbol : some j.word[k] = j.word[k]? := (List.getElem?_eq_getElem hk).symm
  rcases hstep.mistakes_cases with hsame | ⟨cause, o, -, -, hpush⟩
  · rw [hsame]
    exact h.mono (Nat.le_succ k)
  · rw [hpush, hsymbol]
    exact h.push cause

/-- **The record along a journey.** -/
theorem located (h : j.Complete) (hdrawing : j.start.drawing = {}) :
    ∀ k, k ≤ j.word.length → j.Located k (j.turtle k).drawing.mistakes := by
  refine induction h ?_ fun k hk hstep ih => ih.step hk hstep
  rw [turtle_zero, hdrawing]
  exact ⟨.nil, nofun, nofun⟩

/-- The end of the word adds one mistake at most, and that after all others. -/
theorem Located.close {t : Turtle α} (h : j.Located j.word.length t.drawing.mistakes) :
    j.Located (j.word.length + 1) (t.close j.word.length).drawing.mistakes := by
  -- the end of the word is the position of no symbol
  have hend : j.word[j.word.length]? = none := List.getElem?_eq_none (Nat.le_refl _)
  unfold Turtle.close
  cases t.outline with
  | none => exact h.mono (Nat.le_succ _)
  | some o =>
    have hpush := h.push (.polygonLeftOpen o.size)
    rw [hend] at hpush
    exact hpush

/-- A mistake that is not at a symbol is the one that the end of the word adds. -/
theorem Located.eq_of_close {t : Turtle α} (h : j.Located j.word.length t.drawing.mistakes)
    {m : Mistake α} (hm : m ∈ (t.close j.word.length).drawing.mistakes)
    (hposition : j.word.length ≤ m.position) :
    ∃ o, t.outline = some o ∧ m = ⟨.polygonLeftOpen o.size, j.word.length, none⟩ ∧
      (t.close j.word.length).drawing.mistakes.back? = some m := by
  -- a mistake at the end of the word is made by the end of the word
  have hbefore : m ∉ t.drawing.mistakes := fun hm => Nat.not_lt.2 hposition (h.lt m hm)
  unfold Turtle.close at hm ⊢
  cases houtline : t.outline with
  | none =>
    rw [houtline] at hm
    exact absurd hm hbefore
  | some o =>
    rw [houtline] at hm
    rcases Array.mem_push.1 hm with hm | rfl
    · exact absurd hm hbefore
    · exact ⟨o, rfl, rfl, Array.back?_push⟩

/-- **Mistakes point at their causes.** They are on record in the order of their positions, no two at
one position. A mistake at a position of the word has the symbol there; one beyond is at the end of the
word, without a symbol, because a polygon was left open, and it is the last. And whatever is drawn or on
record before a symbol is still there, in its place, before each later one and at the end. -/
theorem mistakes_located {depth : Int} {t : Turtle α}
    (hfresh : Turtle.initial j.setup depth = .ok j.start)
    (hrun : j.start.run j.setup j.table j.word = (t, none)) :
    (t.drawing.mistakes.toList.Pairwise fun m m' => m.position < m'.position) ∧
    (∀ m ∈ t.drawing.mistakes, ∀ hk : m.position < j.word.length,
      m.symbol = some j.word[m.position]) ∧
    (∀ m ∈ t.drawing.mistakes, j.word.length ≤ m.position →
      m.position = j.word.length ∧ m.symbol = none ∧ m.cause.kind = .unclosed ∧
        t.drawing.mistakes.back? = some m) ∧
    ∀ k, k ≤ j.word.length → (j.turtle k).drawing.PartOf t.drawing ∧
      ∀ n, k ≤ n → (j.turtle k).drawing.PartOf (j.turtle n).drawing := by
  obtain ⟨hcomplete, rfl⟩ := of_run hrun
  have hlocated := located hcomplete (of_initial hfresh).2 j.word.length (Nat.le_refl _)
  refine ⟨hlocated.close.increasing, fun m hm hk => ?_, fun m hm hend => ?_, fun k hk => ⟨?_, ?_⟩⟩
  · rw [hlocated.close.symbol m hm, List.getElem?_eq_getElem hk]
  · -- only the polygon left open is put on record at the end
    obtain ⟨o, -, rfl, hlast⟩ := hlocated.eq_of_close hm hend
    exact ⟨rfl, rfl, rfl, hlast⟩
  · exact (partOf_turtle hk).trans (partOf_close ..)
  · intro n hkn
    exact partOf_turtle hkn

open scoped Grid in
/-- A way back that leads nowhere, a polygon begun twice and left open, and a vertex between. -/
theorem mistakes_located_left_open :
    let plain (name : String) : Symbol Int := ⟨name, [], false⟩
    let j := onGrid [plain "]", plain "\x7b", plain "F", plain ".", plain "\x7b", plain "]",
      plain "F"]
    ∃ t, j.start.run j.setup j.table j.word = (t, none) ∧
      t.drawing.mistakes.toList =
        [⟨.popEmpty, 0, some (plain "]")⟩, ⟨.polygonReopened 2, 4, some (plain "\x7b")⟩,
          ⟨.popEmpty, 5, some (plain "]")⟩, ⟨.polygonLeftOpen 1, 7, none⟩] ∧
      (t.drawing.mistakes.toList.Pairwise fun m m' => m.position < m'.position) ∧
      t.drawing.mistakes.back? = some ⟨.polygonLeftOpen 1, 7, none⟩ ∧
      (j.turtle 3).drawing.lines.size = 1 ∧ (j.turtle 3).drawing.PartOf t.drawing := by
  intro plain j
  have hrun : j.start.run j.setup j.table j.word =
      ((j.start.run j.setup j.table j.word).1, none) := Prod.ext rfl (by decide +kernel)
  have hmistakes : (j.start.run j.setup j.table j.word).1.drawing.mistakes.toList =
      [⟨.popEmpty, 0, some (plain "]")⟩, ⟨.polygonReopened 2, 4, some (plain "\x7b")⟩,
        ⟨.popEmpty, 5, some (plain "]")⟩, ⟨.polygonLeftOpen 1, 7, none⟩] := by decide +kernel
  obtain ⟨hincreasing, -, hend, hparts⟩ := mistakes_located (initial_onGrid _) hrun
  have hopen : (⟨.polygonLeftOpen 1, 7, none⟩ : Mistake Int) ∈
      (j.start.run j.setup j.table j.word).1.drawing.mistakes := by
    rw [← Array.mem_toList_iff, hmistakes]
    decide
  exact ⟨_, hrun, hmistakes, hincreasing, (hend _ hopen (Nat.le_refl 7)).2.2.2, by decide +kernel,
    (hparts 3 (by decide)).1⟩

end Journey

end Arbor
