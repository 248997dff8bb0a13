import Arbor.Proofs.Turtle.Journey
import Mathlib.Data.List.Destutter
import Mathlib.Data.List.Intervals

/-!
# Polygons

The polygons of a drawing are the closed outlines of its word, in order and nothing else
(`Journey.polygons_of_run`). Which outlines a word has can be told from its operations alone: one is
closed where a polygon ends that has begun and was neither begun anew nor ended since
(`Journey.OpenSince`). Its vertices are the places where the turtle was at the beginning and at each
vertex submitted since, without those that coincide with the last one kept, and it has to have three
of them (`Journey.Encloses`).

The turtle, on the other hand, keeps one open outline, which every operation on polygons changes. The
two are joined by an invariant along the journey: at each position the turtle has an outline exactly if
one is open there by its operations, with the vertices told from them (`Journey.outlined`). From it
follows, position by position, that the polygons drawn so far are the outlines closed so far
(`Journey.exists_drawn`). Patches, branches, moves and mistakes do not come up in the invariant, because
none of them is an operation on polygons.
-/

namespace Arbor

open Turtle

variable {α : Type}

/-! ### Rows of places -/

/-- Two places are not the same in all coordinates. -/
def Vec.Differs [Scalar α] (v w : Vec α) : Prop := v.coincides w = false

instance [Scalar α] (v w : Vec α) : Decidable (v.Differs w) := inferInstanceAs (Decidable (_ = _))

/-- A row without stutters and one more place, which is compared with the last that was kept. -/
theorem destutter'_concat {β : Type} (R : β → β → Prop) [DecidableRel R] (a : β) (l : List β) (b : β)
    {last : β} (hlast : (l.destutter' R a).getLast? = some last) :
    (l ++ [b]).destutter' R a = l.destutter' R a ++ if R last b then [b] else [] := by
  induction l generalizing a with
  | nil =>
    obtain rfl := Option.some.inj hlast
    by_cases hR : R a b <;> simp [hR]
  | cons c l ih =>
    by_cases hR : R a c
    · rw [List.destutter'_cons_pos l hR] at hlast ⊢
      rw [List.getLast?_cons_of_ne_nil (List.destutter'_ne_nil l R)] at hlast
      rw [List.cons_append, List.destutter'_cons_pos _ hR, ih c hlast, List.cons_append]
    · rw [List.destutter'_cons_neg l hR] at hlast ⊢
      rw [List.cons_append, List.destutter'_cons_neg _ hR, ih a hlast]

namespace Outline

/-- The last vertex of an outline is the one that new vertices are compared with. -/
theorem getLast?_vertices (o : Outline α) : o.vertices.getLast? = some o.last := by
  rw [vertices, last, List.getLast?_cons, Array.getLast?_toList]

/-- A vertex is added if it is not where the last one is. -/
theorem vertices_submit [Scalar α] (o : Outline α) (v : Vec α) :
    (o.submit v).vertices = o.vertices ++ if o.last.Differs v then [v] else [] := by
  unfold submit Vec.Differs
  by_cases h : o.last.coincides v = true
  · simp [h]
  · simp [h, vertices]

/-- A vertex submitted to an outline is one more place in its row. -/
theorem vertices_submit_of_eq [Scalar α] {o : Outline α} {first : Vec α} {places : List (Vec α)}
    (h : o.vertices = places.destutter' Vec.Differs first) (v : Vec α) :
    (o.submit v).vertices = (places ++ [v]).destutter' Vec.Differs first := by
  have hlast : (places.destutter' Vec.Differs first).getLast? = some o.last := by
    rw [← h, getLast?_vertices]
  rw [destutter'_concat Vec.Differs first places v hlast, vertices_submit, h]

end Outline

/-- **The fan.** The triangles of a polygon have its first vertex in common, and two vertices after it
that follow each other. -/
theorem Polygon.getElem?_triangles (p : Polygon α) (n : Nat) (a b c : Vec α) :
    p.triangles[n]? = some (a, b, c) ↔
      p.outline.vertices[0]? = some a ∧ p.outline.vertices[n + 1]? = some b ∧
        p.outline.vertices[n + 2]? = some c := by
  simp only [triangles, Outline.vertices, List.getElem?_map, Option.map_eq_some_iff, Prod.exists,
    List.getElem?_zip_eq_some, List.getElem?_tail, Prod.mk.injEq, List.getElem?_cons_zero,
    List.getElem?_cons_succ, Option.some.injEq]
  constructor
  · rintro ⟨b', c', ⟨hb, hc⟩, ha, rfl, rfl⟩
    exact ⟨ha, hb, hc⟩
  · rintro ⟨ha, hb, hc⟩
    exact ⟨b, c, ⟨hb, hc⟩, ha, rfl, rfl⟩

/-- There are two triangles less than vertices. -/
theorem Polygon.length_triangles (p : Polygon α) :
    p.triangles.length = p.outline.vertices.length - 2 := by
  simp [triangles, Outline.vertices]

variable [Scalar α]

namespace Journey

variable {j : Journey α} {i i' k : Nat}

/-! ### Outlines of a word -/

/-- **Open polygons.** A polygon begins at position `i`, and none is begun or ended between there and
position `k`. -/
structure OpenSince (j : Journey α) (i k : Nat) : Prop where
  lt : i < k
  begins : j.operation? i = some .beginPolygon
  between : ∀ m, i < m → m < k →
    j.operation? m ≠ some .beginPolygon ∧ j.operation? m ≠ some .endPolygon

/-- The positions between two others where a vertex is submitted. -/
def submissions (j : Journey α) (i k : Nat) : List Nat :=
  (List.Ico (i + 1) k).filter fun m => j.operation? m = some .submitVertex

/-- The vertices of a polygon that begins at position `i`, as they are before position `k`: where it
begins and where vertices are submitted, but for those that coincide with the last one kept. -/
def vertices (j : Journey α) (i k : Nat) : List (Vec α) :=
  ((j.submissions i k).map j.place).destutter' Vec.Differs (j.place i)

/-- **Closed outlines.** A polygon that is open since position `i` ends at position `k` with three
vertices or more. -/
structure Encloses (j : Journey α) (i k : Nat) : Prop where
  openSince : j.OpenSince i k
  ends : j.operation? k = some .endPolygon
  large : 3 ≤ (j.vertices i k).length

/-- At the start of a word no polygon is open. -/
theorem not_openSince_zero : ¬ j.OpenSince i 0 := fun h => Nat.not_lt_zero _ h.lt

/-- What is open after a symbol is what it begins, or what was open before it and is neither begun anew
nor ended. -/
theorem openSince_succ_iff :
    j.OpenSince i (k + 1) ↔ (i = k ∧ j.operation? k = some .beginPolygon) ∨
      (j.OpenSince i k ∧ j.operation? k ≠ some .beginPolygon ∧
        j.operation? k ≠ some .endPolygon) := by
  constructor
  · intro h
    rcases Nat.lt_succ_iff_lt_or_eq.1 h.lt with hik | rfl
    · -- the polygon was begun earlier, and the symbol at `k` is one of those it stays open through
      exact .inr ⟨⟨hik, h.begins, fun m hm hmk => h.between m hm (Nat.lt_succ_of_lt hmk)⟩,
        h.between k hik (Nat.lt_succ_self k)⟩
    · exact .inl ⟨rfl, h.begins⟩
  · rintro (⟨rfl, hbegin⟩ | ⟨h, hk⟩)
    · -- nothing lies between the beginning and the next position
      exact ⟨Nat.lt_succ_self i, hbegin,
        fun m hm hmi => absurd hm (Nat.not_lt.2 (Nat.le_of_lt_succ hmi))⟩
    · refine ⟨Nat.lt_succ_of_lt h.lt, h.begins, fun m hm hmk => ?_⟩
      rcases Nat.lt_succ_iff_lt_or_eq.1 hmk with hmk | rfl
      · exact h.between m hm hmk
      · exact hk

/-- At most one polygon is open. -/
theorem OpenSince.unique (h : j.OpenSince i k) (h' : j.OpenSince i' k) : i = i' := by
  rcases Nat.lt_trichotomy i i' with hlt | heq | hlt
  · exact absurd h'.begins (h.between i' hlt h'.lt).1
  · exact heq
  · exact absurd h.begins (h'.between i hlt h.lt).1

/-- One position later the polygon has one more submission, if that is what the symbol does. -/
theorem submissions_succ (h : i < k) :
    j.submissions i (k + 1) =
      j.submissions i k ++ if j.operation? k = some .submitVertex then [k] else [] := by
  rw [submissions, List.Ico.succ_top h, List.filter_append, submissions]
  by_cases hk : j.operation? k = some .submitVertex
  · rw [List.filter_cons_of_pos (by simpa using hk), List.filter_nil, if_pos hk]
  · rw [List.filter_cons_of_neg (by simpa using hk), List.filter_nil, if_neg hk]

/-- A polygon begins with the place where the turtle is. -/
theorem vertices_succ_self : j.vertices k (k + 1) = [j.place k] := by
  rw [vertices, submissions, List.Ico.self_empty]
  rfl

/-- Other symbols than submissions leave the vertices as they are. -/
theorem vertices_succ_of_ne (h : i < k) (hk : j.operation? k ≠ some .submitVertex) :
    j.vertices i (k + 1) = j.vertices i k := by
  rw [vertices, submissions_succ h, if_neg hk, List.append_nil, vertices]

/-- A submission adds the place where the turtle is, unless it is there already. -/
theorem vertices_submit {o : Outline α} (h : i < k) (hk : j.operation? k = some .submitVertex)
    (ho : o.vertices = j.vertices i k) :
    (o.submit (j.place k)).vertices = j.vertices i (k + 1) := by
  rw [Outline.vertices_submit_of_eq ho, vertices, submissions_succ h, if_pos hk, List.map_append,
    List.map_singleton]

/-! ### The outline of the turtle -/

/-- **Invariant.** An outline is the one that is open at position `k` by the operations of the word. -/
inductive Outlined (j : Journey α) (k : Nat) : Option (Outline α) → Prop
  | closed (none_open : ∀ i, ¬ j.OpenSince i k) : Outlined j k none
  | isOpen {i : Nat} {o : Outline α} (since : j.OpenSince i k)
      (vertices : o.vertices = j.vertices i k) : Outlined j k (some o)

section Step

variable {s : Symbol α} {t' : Turtle α}

/-- Whatever was open, the polygon that begins is open then. -/
theorem Outlined.step_of_begin (ho : j.operation? k = some .beginPolygon)
    (hstep : Step j.setup k s (j.turtle k) (some .beginPolygon) t') :
    j.Outlined (k + 1) t'.outline := by
  have hopen : j.OpenSince k (k + 1) := openSince_succ_iff.2 (.inl ⟨rfl, ho⟩)
  cases hstep with
  | begins => exact .isOpen hopen vertices_succ_self.symm
  | begins_again => exact .isOpen hopen vertices_succ_self.symm
  | adjust operation => cases operation

/-- Whatever was open, nothing is open after an end. -/
theorem Outlined.step_of_end (ho : j.operation? k = some .endPolygon)
    (hstep : Step j.setup k s (j.turtle k) (some .endPolygon) t') :
    j.Outlined (k + 1) t'.outline := by
  have hnone : ∀ i, ¬ j.OpenSince i (k + 1) := by
    intro i hi
    rcases openSince_succ_iff.1 hi with ⟨-, hk⟩ | ⟨-, -, hk⟩
    · rw [ho] at hk
      cases hk
    · exact hk ho
  cases hstep with
  | ends => exact .closed hnone
  | ends_small => exact .closed hnone
  | ends_none closed =>
    rw [record_outline, closed]
    exact .closed hnone
  | adjust operation => cases operation

/-- All other symbols leave open what is open. -/
theorem openSince_succ_iff_of_ne (hbegin : j.operation? k ≠ some .beginPolygon)
    (hend : j.operation? k ≠ some .endPolygon) : j.OpenSince i (k + 1) ↔ j.OpenSince i k := by
  rw [openSince_succ_iff]
  simp [hbegin, hend]

/-- A vertex is added to the polygon that is open, if there is one. -/
theorem Outlined.step_of_submit (h : j.Outlined k (j.turtle k).outline)
    (ho : j.operation? k = some .submitVertex)
    (hstep : Step j.setup k s (j.turtle k) (some .submitVertex) t') :
    j.Outlined (k + 1) t'.outline := by
  have hsucc : ∀ i, j.OpenSince i (k + 1) ↔ j.OpenSince i k := fun i =>
    openSince_succ_iff_of_ne (by simp [ho]) (by simp [ho])
  cases hstep with
  | submits isOpen =>
    rw [isOpen] at h
    cases h with
    | isOpen since vertices =>
      exact .isOpen ((hsucc _).2 since) (vertices_submit since.lt ho vertices)
  | submits_outside closed =>
    rw [closed] at h
    rw [record_outline, closed]
    cases h with
    | closed none_open => exact .closed fun i hi => none_open i ((hsucc i).1 hi)
  | adjust operation => cases operation

/-- What is open, and its vertices, are the same after a symbol that is none of the three. -/
theorem Outlined.succ {outline : Option (Outline α)} (h : j.Outlined k outline)
    (hbegin : j.operation? k ≠ some .beginPolygon) (hsubmit : j.operation? k ≠ some .submitVertex)
    (hend : j.operation? k ≠ some .endPolygon) : j.Outlined (k + 1) outline := by
  cases h with
  | closed none_open =>
    exact .closed fun i hi => none_open i ((openSince_succ_iff_of_ne hbegin hend).1 hi)
  | isOpen since vertices =>
    refine .isOpen ((openSince_succ_iff_of_ne hbegin hend).2 since) ?_
    rw [vertices_succ_of_ne since.lt hsubmit, vertices]

end Step

/-- **A symbol keeps the invariant.** -/
theorem Outlined.step {s : Symbol α} (h : j.Outlined k (j.turtle k).outline)
    (hstep : Step j.setup k s (j.turtle k) (j.operation? k) (j.turtle (k + 1))) :
    j.Outlined (k + 1) (j.turtle (k + 1)).outline := by
  by_cases hbegin : j.operation? k = some .beginPolygon
  · exact step_of_begin hbegin (hbegin ▸ hstep)
  by_cases hsubmit : j.operation? k = some .submitVertex
  · exact h.step_of_submit hsubmit (hsubmit ▸ hstep)
  by_cases hend : j.operation? k = some .endPolygon
  · exact step_of_end hend (hend ▸ hstep)
  rw [hstep.outline_eq hbegin hsubmit hend]
  exact h.succ hbegin hsubmit hend

/-- **The outline of the turtle** is the one that is open by the operations of the word. -/
theorem outlined (h : j.Complete) (hstart : j.start.outline = none) :
    ∀ k, k ≤ j.word.length → j.Outlined k (j.turtle k).outline := by
  refine induction h ?_ fun k hk hstep ih => ih.step hstep
  rw [turtle_zero, hstart]
  exact .closed fun i => not_openSince_zero

/-! ### The polygons of the drawing -/

/-- A polygon has the vertices of an outline, and the color in force where that is closed. -/
def Draws (j : Journey α) (span : Nat × Nat) (p : Polygon α) : Prop :=
  p.outline.vertices = j.vertices span.1 span.2 ∧ p.color = (j.turtle span.2).pose.color

/-- Polygons are those of the outlines closed before position `k`, which lie at `spans`. -/
structure Drawn (j : Journey α) (k : Nat) (spans : List (Nat × Nat)) (ps : List (Polygon α)) :
    Prop where
  increasing : spans.Pairwise fun a b => a.2 < b.2
  mem_iff : ∀ i m, (i, m) ∈ spans ↔ m < k ∧ j.Encloses i m
  draws : List.Forall₂ j.Draws spans ps

/-- Where no polygon ends those drawn so far are the same. -/
theorem Drawn.succ {spans : List (Nat × Nat)} {ps : List (Polygon α)} (h : j.Drawn k spans ps)
    (hk : ∀ i, ¬ j.Encloses i k) : j.Drawn (k + 1) spans ps := by
  refine ⟨h.increasing, fun i m => ?_, h.draws⟩
  rw [h.mem_iff, Nat.lt_succ_iff_lt_or_eq]
  constructor
  · rintro ⟨hm, hencloses⟩
    exact ⟨.inl hm, hencloses⟩
  · rintro ⟨hm | rfl, hencloses⟩
    · exact ⟨hm, hencloses⟩
    · exact absurd hencloses (hk i)

/-- Where one ends it comes after all others. -/
theorem Drawn.concat {spans : List (Nat × Nat)} {ps : List (Polygon α)} {p : Polygon α}
    (h : j.Drawn k spans ps) (hk : j.Encloses i k) (hp : j.Draws (i, k) p) :
    j.Drawn (k + 1) (spans ++ [(i, k)]) (ps ++ [p]) := by
  refine ⟨?_, fun i' m => ?_, List.rel_append h.draws (.cons hp .nil)⟩
  · refine List.pairwise_append.2 ⟨h.increasing, List.pairwise_singleton _ _, fun a ha b hb => ?_⟩
    -- the polygons before end before `k`, and this one ends there
    rw [List.mem_singleton.1 hb]
    exact ((h.mem_iff a.1 a.2).1 ha).1
  · rw [List.mem_append, List.mem_singleton, h.mem_iff, Prod.mk.injEq, Nat.lt_succ_iff_lt_or_eq]
    constructor
    · rintro (⟨hm, hencloses⟩ | ⟨rfl, rfl⟩)
      · exact ⟨.inl hm, hencloses⟩
      · exact ⟨.inr rfl, hk⟩
    · -- only one beginning is that of the polygon which is open at `k`
      rintro ⟨hm | rfl, hencloses⟩
      · exact .inl ⟨hm, hencloses⟩
      · exact .inr ⟨hencloses.openSince.unique hk.openSince, rfl⟩

/-- Two vertices of a polygon that is drawn differ if one follows the other. -/
theorem Drawn.isChain {spans : List (Nat × Nat)} {ps : List (Polygon α)}
    (h : j.Drawn k spans ps) : ∀ p ∈ ps, p.outline.vertices.IsChain Vec.Differs := by
  have hflip := h.draws.flip.imp (S := fun p span =>
    p.outline.vertices.IsChain Vec.Differs ∧ j.Draws span p) fun p span hp => by
      refine ⟨?_, hp⟩
      -- what is left after repetitions are taken out has none
      rw [hp.1]
      exact List.isChain_destutter' _ _ _
  exact ((List.forall₂_and_left _ _).1 hflip).1

/-- A symbol adds a polygon exactly if it closes an outline. -/
theorem Drawn.step {s : Symbol α} {spans : List (Nat × Nat)}
    (h : j.Drawn k spans (j.turtle k).drawing.polygons.toList)
    (houtlined : j.Outlined k (j.turtle k).outline)
    (hstep : Step j.setup k s (j.turtle k) (j.operation? k) (j.turtle (k + 1))) :
    ∃ spans', j.Drawn (k + 1) spans' (j.turtle (k + 1)).drawing.polygons.toList := by
  generalize ho : j.operation? k = o at hstep
  by_cases hend : o = some .endPolygon
  · subst hend
    generalize j.turtle (k + 1) = t' at hstep
    cases hstep with
    | ends isOpen large =>
      rw [isOpen] at houtlined
      cases houtlined with
      | @isOpen i o since vertices =>
        -- by the invariant the outline here is that of the polygon open since `i`
        have hencloses : j.Encloses i k := by
          refine ⟨since, ho, ?_⟩
          rw [← vertices, Outline.length_vertices]
          exact large
        refine ⟨spans ++ [(i, k)], ?_⟩
        simp only [addPolygon, Array.toList_push]
        exact h.concat hencloses ⟨vertices, rfl⟩
    | ends_small isOpen small =>
      rw [isOpen] at houtlined
      cases houtlined with
      | isOpen since vertices =>
        refine ⟨spans, h.succ fun i' hencloses => ?_⟩
        have hlarge := hencloses.large
        rw [hencloses.openSince.unique since, ← vertices, Outline.length_vertices] at hlarge
        omega
    | ends_none closed =>
      rw [closed] at houtlined
      cases houtlined with
      | closed none_open => exact ⟨spans, h.succ fun i hencloses => none_open i hencloses.openSince⟩
    | adjust operation => cases operation
  · -- nothing else adds a polygon, and nothing else closes an outline
    have hpolygons : (j.turtle (k + 1)).drawing.polygons = (j.turtle k).drawing.polygons :=
      hstep.polygons_eq hend
    rw [hpolygons]
    exact ⟨spans, h.succ fun i hencloses => hend (ho ▸ hencloses.ends)⟩

theorem exists_drawn (h : j.Complete) (houtline : j.start.outline = none)
    (hdrawing : j.start.drawing = {}) :
    ∀ k, k ≤ j.word.length → ∃ spans, j.Drawn k spans (j.turtle k).drawing.polygons.toList := by
  refine induction h ?_ fun k hk hstep ih => ?_
  · -- no polygon is drawn at the start
    refine ⟨[], .nil, fun i m => ?_, ?_⟩
    · simp
    · rw [turtle_zero, hdrawing]
      exact .nil
  · obtain ⟨spans, hspans⟩ := ih
    exact hspans.step (outlined h houtline k (Nat.le_of_lt hk)) hstep

/-- **The polygons of a drawing** are the closed outlines of its word, in the order in which they end,
with the color in force there. So each has three vertices or more, of which no two that follow each
other coincide, and its triangles are the fan around the first. -/
theorem polygons_of_run {depth : Int} {t : Turtle α}
    (hfresh : Turtle.initial j.setup depth = .ok j.start)
    (hrun : j.start.run j.setup j.table j.word = (t, none)) :
    (∃ spans : List (Nat × Nat), (spans.Pairwise fun a b => a.2 < b.2) ∧
      (∀ i k, (i, k) ∈ spans ↔ j.Encloses i k) ∧
      List.Forall₂ j.Draws spans t.drawing.polygons.toList) ∧
    ∀ p ∈ t.drawing.polygons,
      3 ≤ p.outline.vertices.length ∧ p.outline.vertices.IsChain Vec.Differs ∧
      p.triangles.length = p.outline.vertices.length - 2 ∧
      ∀ n a b c, p.triangles[n]? = some (a, b, c) ↔
        p.outline.vertices[0]? = some a ∧ p.outline.vertices[n + 1]? = some b ∧
          p.outline.vertices[n + 2]? = some c := by
  obtain ⟨houtline, hdrawing⟩ := of_initial hfresh
  obtain ⟨hcomplete, rfl⟩ := of_run hrun
  -- the end of the word draws none
  obtain ⟨spans, hdrawn⟩ := exists_drawn hcomplete houtline hdrawing j.word.length (Nat.le_refl _)
  rw [close_polygons]
  refine ⟨⟨spans, hdrawn.increasing, fun i k => ?_, hdrawn.draws⟩, fun p hp => ?_⟩
  · rw [hdrawn.mem_iff]
    exact ⟨fun h => h.2, fun h => ⟨lt_of_operation? h.ends, h⟩⟩
  · refine ⟨?_, ?_, p.length_triangles, p.getElem?_triangles⟩
    · rw [Outline.length_vertices]
      exact p.three_le_size
    · exact hdrawn.isChain p (Array.mem_toList_iff.2 hp)

open scoped Grid in
/-- A corner on the grid, with a vertex submitted twice, a patch named like the end and a color before
it, and a polygon after it that is too small. -/
theorem polygons_of_run_corner :
    let plain (name : String) : Symbol Int := ⟨name, [], false⟩
    let j := onGrid [plain "\x7b", plain "F", plain ".", plain ".", plain "+", plain "F", plain ".",
      ⟨"\x7d", [], true⟩, plain "\x27", plain "\x7d", plain "\x7b", plain "F", plain "\x7d"]
    ∃ t, j.start.run j.setup j.table j.word = (t, none) ∧
      t.drawing.polygons.toList.map (fun p => (p.outline.vertices, p.color)) =
        [([⟨0, 0, 0⟩, ⟨1, 0, 0⟩, ⟨1, 1, 0⟩], 1)] ∧
      (∃ spans : List (Nat × Nat), (∀ i k, (i, k) ∈ spans ↔ j.Encloses i k) ∧
        List.Forall₂ j.Draws spans t.drawing.polygons.toList) ∧
      ∀ p ∈ t.drawing.polygons, p.triangles.length = p.outline.vertices.length - 2 := by
  intro plain j
  have hfault : (j.start.run j.setup j.table j.word).2 = none := by decide +kernel
  have hrun : j.start.run j.setup j.table j.word =
      ((j.start.run j.setup j.table j.word).1, none) := by rw [← hfault]
  obtain ⟨⟨spans, -, hspans, hdraws⟩, hpolygons⟩ := polygons_of_run (initial_onGrid _) hrun
  exact ⟨_, hrun, by decide +kernel, ⟨spans, hspans, hdraws⟩, fun p hp => (hpolygons p hp).2.2.1⟩

end Journey

end Arbor
