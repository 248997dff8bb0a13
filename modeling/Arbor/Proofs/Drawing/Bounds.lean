import Arbor.Drawing.Basic
import Arbor.Proofs.Numeral.Order

/-!
# The box around a drawing

The bounds of a drawing are the corners of the tight box around it (`Drawing.bounds_tight`): all end
points of lines and all vertices of polygons lie between them, and each side of the box has such a point
on it. A drawing has no bounds just if it has neither lines nor polygons. Patches play no part.

That a box is tight settles its corners (`Drawing.IsBox.coincides`), up to the sign of zero. So it does
not matter in which order a drawing was made, although the program goes through it from one end to the
other.

The corners are found coordinate by coordinate, with one of two numbers kept at each point. What has to
be known of keeping the lesser or the greater one is the same for both (`Chooses`), and one induction
serves both corners (`Chooses.foldl`). It asks for coordinates that are numbers, since no number is less
than what is not one.
-/

namespace Arbor

/-! ### Keeping one of two values -/

section Choice

variable {α : Type} {P : α → Prop} {R : α → α → Prop} {f : α → α → α}

/-- **A choice** between values with `P` keeps one of the two, which is in the relation `R` to both. -/
structure Chooses (P : α → Prop) (R : α → α → Prop) (f : α → α → α) : Prop where
  keeps : ∀ a b, f a b = a ∨ f a b = b
  left : ∀ {a b}, P a → P b → R (f a b) a
  right : ∀ {a b}, P a → P b → R (f a b) b

/-- **What is kept of a row of values** is one of them, and is in the relation to all of them. -/
theorem Chooses.foldl (h : Chooses P R f) (refl : ∀ {a}, P a → R a a)
    (trans : ∀ {a b c}, R a b → R b c → R a c) {a : α} {as : List α} (hP : ∀ b ∈ a :: as, P b) :
    as.foldl f a ∈ a :: as ∧ ∀ b ∈ a :: as, R (as.foldl f a) b := by
  induction as generalizing a with
  | nil => exact ⟨List.mem_cons_self, by simpa using refl (hP a List.mem_cons_self)⟩
  | cons b as ih =>
    have ha : P a := hP a List.mem_cons_self
    have hb : P b := hP b (List.mem_cons_of_mem a List.mem_cons_self)
    have has : ∀ c ∈ as, P c := fun c hc =>
      hP c (List.mem_cons_of_mem a (List.mem_cons_of_mem b hc))
    -- what is chosen first takes part in the other choices
    have hkept : P (f a b) := by
      rcases h.keeps a b with heq | heq
      · rwa [heq]
      · rwa [heq]
    obtain ⟨hmem, hall⟩ := ih (List.forall_mem_cons.2 ⟨hkept, has⟩)
    rw [List.foldl_cons]
    constructor
    · -- the choice is one of the two first, or a later one
      rcases List.mem_cons.1 hmem with heq | hmem
      · rw [heq]
        rcases h.keeps a b with heq | heq <;> simp [heq]
      · simp [hmem]
    · -- it stands before the one chosen first, and that one before both
      have hfirst := hall _ List.mem_cons_self
      refine List.forall_mem_cons.2 ⟨trans hfirst (h.left ha hb), ?_⟩
      refine List.forall_mem_cons.2 ⟨trans hfirst (h.right ha hb), fun c hc => ?_⟩
      exact hall c (List.mem_cons_of_mem _ hc)

end Choice

namespace Scalar

/-- With a number before it, a double that is less is kept. -/
theorem lesser_of_isNaN {a : Float} (ha : a.isNaN = false) (b : Float) :
    lesser a b = if a < b then a else b := by
  simp [lesser, Numeral.beq_self_of_isNaN ha]

/-- The greater of two is the first if it is a number and above the second. -/
theorem greater_of_isNaN {a : Float} (ha : a.isNaN = false) (b : Float) :
    greater a b = if b < a then a else b := by
  simp [greater, Numeral.beq_self_of_isNaN ha]

/-- The lesser of two numbers is chosen, and is below both. -/
theorem chooses_lesser : Chooses (fun a : Float => a.isNaN = false) (· ≤ ·) lesser where
  keeps a b := by
    unfold lesser
    split
    · exact .inl rfl
    · exact .inr rfl
  left ha hb := by
    rw [lesser_of_isNaN ha]
    split
    · exact Numeral.le_of_isNaN ha
    · next hnot => exact Numeral.le_of_not_lt hb ha hnot
  right ha hb := by
    rw [lesser_of_isNaN ha]
    split
    · next hlt => exact Numeral.le_of_lt hlt
    · exact Numeral.le_of_isNaN hb

/-- The greater is chosen, and is above both. -/
theorem chooses_greater : Chooses (fun a : Float => a.isNaN = false) (fun a b => b ≤ a) greater where
  keeps a b := by
    unfold greater
    split
    · exact .inl rfl
    · exact .inr rfl
  left ha hb := by
    rw [greater_of_isNaN ha]
    split
    · exact Numeral.le_of_isNaN ha
    · next hnot => exact Numeral.le_of_not_lt ha hb hnot
  right ha hb := by
    rw [greater_of_isNaN ha]
    split
    · next hlt => exact Numeral.le_of_lt hlt
    · exact Numeral.le_of_isNaN hb

end Scalar

/-! ### Coordinates -/

namespace Vec

variable {α : Type}

/-- The coordinates of a vector, counted from zero. -/
def coordinate (v : Vec α) : Fin 3 → α
  | 0 => v.x
  | 1 => v.y
  | 2 => v.z

/-- Two vectors are put together coordinate by coordinate. -/
theorem coordinate_zipWith (f : α → α → α) (v w : Vec α) (i : Fin 3) :
    (zipWith f v w).coordinate i = f (v.coordinate i) (w.coordinate i) := by
  fin_cases i <;> rfl

/-- So are many, one after the other. -/
theorem coordinate_foldl (f : α → α → α) (p : Vec α) (ps : List (Vec α)) (i : Fin 3) :
    (ps.foldl (zipWith f) p).coordinate i =
      (ps.map (·.coordinate i)).foldl f (p.coordinate i) := by
  induction ps generalizing p with
  | nil => rfl
  | cons q ps ih => rw [List.foldl_cons, ih, coordinate_zipWith, List.map_cons, List.foldl_cons]

/-- Vectors coincide if their coordinates are equal. -/
theorem coincides_iff {v w : Vec Float} :
    v.coincides w = true ↔ ∀ i, (v.coordinate i == w.coordinate i) = true := by
  rw [Fin.forall_fin_succ, Fin.forall_fin_two]
  simp [coincides, coordinate, and_assoc]

end Vec

/-! ### Points and boxes -/

namespace Drawing

/-- **A point of a drawing** is an end of a line or a vertex of a polygon. -/
def HasPoint {α : Type} (d : Drawing α) (p : Vec α) : Prop :=
  (∃ l ∈ d.lines, p = l.start ∨ p = l.finish) ∨ ∃ q ∈ d.polygons, p ∈ q.outline.vertices

theorem mem_points {α : Type} {d : Drawing α} {p : Vec α} : p ∈ d.points ↔ d.HasPoint p := by
  simp [points, HasPoint]

/-- A polygon has vertices, so a drawing without points has neither lines nor polygons. -/
theorem points_eq_nil_iff {α : Type} {d : Drawing α} :
    d.points = [] ↔ d.lines = #[] ∧ d.polygons = #[] := by
  simp [points, Outline.vertices, Array.eq_empty_iff_forall_not_mem]

/-- A drawing has no points just if it has neither lines nor polygons. -/
theorem forall_not_hasPoint_iff {α : Type} {d : Drawing α} :
    (∀ p, ¬ d.HasPoint p) ↔ d.lines = #[] ∧ d.polygons = #[] := by
  rw [← points_eq_nil_iff, List.eq_nil_iff_forall_not_mem]
  simp only [mem_points]

/-- **The box** around a drawing, by its least and its greatest corner. -/
structure IsBox (d : Drawing Float) (lo hi : Vec Float) : Prop where
  encloses : ∀ p, d.HasPoint p → ∀ i, lo.coordinate i ≤ p.coordinate i ∧
    p.coordinate i ≤ hi.coordinate i
  attains : ∀ i, (∃ p, d.HasPoint p ∧ p.coordinate i = lo.coordinate i) ∧
    ∃ p, d.HasPoint p ∧ p.coordinate i = hi.coordinate i

variable {d d' : Drawing Float} {lo hi lo' hi' : Vec Float}

/-- **Tight boxes** around the same points have the same corners. -/
theorem IsBox.coincides (h : d.IsBox lo hi) (h' : d'.IsBox lo' hi')
    (hpoints : ∀ p, d'.HasPoint p ↔ d.HasPoint p) :
    lo'.coincides lo = true ∧ hi'.coincides hi = true := by
  rw [Vec.coincides_iff, Vec.coincides_iff]
  refine ⟨fun i => ?_, fun i => ?_⟩
  · -- each box has its corner from a point, which the other box encloses
    obtain ⟨p, hp, hlo⟩ := (h.attains i).1
    obtain ⟨p', hp', hlo'⟩ := (h'.attains i).1
    refine Numeral.beq_of_le_of_le ?_ ?_
    · rw [← hlo]
      exact (h'.encloses p ((hpoints p).2 hp) i).1
    · rw [← hlo']
      exact (h.encloses p' ((hpoints p').1 hp') i).1
  · obtain ⟨p, hp, hhi⟩ := (h.attains i).2
    obtain ⟨p', hp', hhi'⟩ := (h'.attains i).2
    refine Numeral.beq_of_le_of_le ?_ ?_
    · rw [← hhi']
      exact (h.encloses p' ((hpoints p').1 hp') i).2
    · rw [← hhi]
      exact (h'.encloses p ((hpoints p).2 hp) i).2

/-- All coordinates of all points are numbers. -/
def Numeric (d : Drawing Float) : Prop :=
  ∀ p, d.HasPoint p → ∀ i, (p.coordinate i).isNaN = false

instance (d : Drawing Float) : Decidable d.Numeric :=
  decidable_of_iff (∀ p ∈ d.points, ∀ i, (p.coordinate i).isNaN = false)
    (by simp only [Numeric, mem_points])

/-- What is found coordinate by coordinate is attained, and is in its relation to all points. -/
theorem corner_of_chooses {R : Float → Float → Prop} {f : Float → Float → Float}
    (hf : Chooses (fun a => a.isNaN = false) R f) (refl : ∀ {a : Float}, a.isNaN = false → R a a)
    (trans : ∀ {a b c}, R a b → R b c → R a c) (hd : d.Numeric) {p : Vec Float}
    {ps : List (Vec Float)} (hpoints : d.points = p :: ps) (i : Fin 3) :
    (∃ q, d.HasPoint q ∧ q.coordinate i = (ps.foldl (Vec.zipWith f) p).coordinate i) ∧
      ∀ q, d.HasPoint q → R ((ps.foldl (Vec.zipWith f) p).coordinate i) (q.coordinate i) := by
  -- one coordinate of all points is a list of numbers
  have hmap : p.coordinate i :: ps.map (·.coordinate i) = d.points.map (·.coordinate i) := by
    rw [hpoints, List.map_cons]
  have hnumbers : ∀ a ∈ p.coordinate i :: ps.map (·.coordinate i), a.isNaN = false := by
    intro a ha
    rw [hmap] at ha
    obtain ⟨q, hq, rfl⟩ := List.mem_map.1 ha
    exact hd q (mem_points.1 hq) i
  obtain ⟨hmem, hall⟩ := hf.foldl refl trans hnumbers
  rw [← Vec.coordinate_foldl, hmap] at hmem
  rw [← Vec.coordinate_foldl, hmap] at hall
  refine ⟨?_, fun q hq => hall _ (List.mem_map_of_mem (mem_points.2 hq))⟩
  obtain ⟨q, hq, heq⟩ := List.mem_map.1 hmem
  exact ⟨q, mem_points.1 hq, heq⟩

/-- **Bounds** are the corners of the box. -/
theorem isBox_of_bounds (hd : d.Numeric) (h : d.bounds = .ok (lo, hi)) : d.IsBox lo hi := by
  unfold bounds at h
  split at h
  · cases h
  · next p ps hpoints =>
    obtain ⟨rfl, rfl⟩ := Prod.mk.inj (Except.ok.inj h)
    have hlo := corner_of_chooses Scalar.chooses_lesser Numeral.le_of_isNaN Numeral.le_of_le_le hd
      hpoints
    have hhi := corner_of_chooses Scalar.chooses_greater Numeral.le_of_isNaN
      (fun hab hbc => Numeral.le_of_le_le hbc hab) hd hpoints
    exact ⟨fun q hq i => ⟨(hlo i).2 q hq, (hhi i).2 q hq⟩, fun i => ⟨(hlo i).1, (hhi i).1⟩⟩

/-- Only a drawing without lines and polygons has no bounds. -/
theorem bounds_eq_error_iff : d.bounds = .error {} ↔ d.lines = #[] ∧ d.polygons = #[] := by
  rw [← points_eq_nil_iff]
  unfold bounds
  split
  · next hnil => exact iff_of_true rfl hnil
  · next hpoints => exact iff_of_false nofun (by rw [hpoints]; exact List.cons_ne_nil _ _)

/-- The order of lines and polygons is no matter of its points. -/
theorem hasPoint_of_perm (hlines : d'.lines.Perm d.lines) (hpolygons : d'.polygons.Perm d.polygons)
    (p : Vec Float) : d'.HasPoint p ↔ d.HasPoint p := by
  simp only [HasPoint, hlines.mem_iff, hpolygons.mem_iff]

/-- **The bounds of a drawing** whose coordinates are numbers. There are none if and only if there are
no lines and no polygons. Otherwise they are the corners of the box: all points of the drawing lie between
them, and in each coordinate either corner has a point. A drawing with the same lines and polygons in
another order, and with whatever patches and mistakes, has the same bounds, up to the sign of zero; and
with the same lines and polygons in the same order they are the very same. -/
theorem bounds_tight (hd : d.Numeric) :
    (d.bounds = .error {} ↔ d.lines = #[] ∧ d.polygons = #[]) ∧
    (¬ (d.lines = #[] ∧ d.polygons = #[]) → ∃ lo hi, d.bounds = .ok (lo, hi) ∧ d.IsBox lo hi ∧
      ∀ d' : Drawing Float, d'.lines.Perm d.lines → d'.polygons.Perm d.polygons →
        ∃ lo' hi', d'.bounds = .ok (lo', hi') ∧ lo'.coincides lo = true ∧ hi'.coincides hi = true) ∧
    ∀ patches mistakes, ({ d with patches, mistakes } : Drawing Float).bounds = d.bounds := by
  refine ⟨bounds_eq_error_iff, fun hdrawn => ?_, fun _ _ => rfl⟩
  cases hbounds : d.bounds with
  | error e => exact absurd (bounds_eq_error_iff.1 hbounds) hdrawn
  | ok corners =>
    obtain ⟨lo, hi⟩ := corners
    have hbox := isBox_of_bounds hd hbounds
    refine ⟨lo, hi, rfl, hbox, fun d' hlines hpolygons => ?_⟩
    -- lines and polygons in another order have the same points
    have hpoints := hasPoint_of_perm hlines hpolygons
    have hd' : d'.Numeric := fun p hp => hd p ((hpoints p).1 hp)
    cases hbounds' : d'.bounds with
    | error e =>
      have hnone := forall_not_hasPoint_iff.2 (bounds_eq_error_iff.1 hbounds')
      simp only [hpoints] at hnone
      exact absurd (forall_not_hasPoint_iff.1 hnone) hdrawn
    | ok corners' =>
      exact ⟨corners'.1, corners'.2, rfl, hbox.coincides (isBox_of_bounds hd' hbounds') hpoints⟩

/-- Two lines, one of infinite length, and a triangle that has both zeros; and the lines in the other
order. -/
theorem bounds_tight_triangle :
    let infinite : Line Float := ⟨⟨0.0, -0.0, 1.0⟩, ⟨-2.0, 3.0, 1.0 / 0.0⟩, 0, 1.0⟩
    let short : Line Float := ⟨⟨0.5, 0.0, 2.0⟩, ⟨0.5, 0.0, 3.0⟩, 0, 1.0⟩
    let triangle : Polygon Float :=
      ⟨⟨⟨1.0, 0.0, 0.0⟩, #[⟨-0.0, -5.0, 2.5⟩, ⟨0.0, 0.0, -0.0⟩]⟩, 1, by decide⟩
    let d : Drawing Float := { lines := #[infinite, short], polygons := #[triangle] }
    let d' : Drawing Float := { d with lines := #[short, infinite] }
    let lo : Vec Float := ⟨-2.0, -5.0, -0.0⟩
    let hi : Vec Float := ⟨1.0, 3.0, 1.0 / 0.0⟩
    d.Numeric ∧ ¬ (d.lines = #[] ∧ d.polygons = #[]) ∧ d.bounds = .ok (lo, hi) ∧ d.IsBox lo hi ∧
      ∃ lo' hi', d'.bounds = .ok (lo', hi') ∧ lo'.coincides lo = true ∧ hi'.coincides hi = true := by
  intro infinite short triangle d d' lo hi
  have hd : d.Numeric := by decide +kernel
  have hdrawn : ¬ (d.lines = #[] ∧ d.polygons = #[]) := fun h => nomatch h.1
  have hlo : d.bounds = .ok (lo, hi) := by decide +kernel
  obtain ⟨-, hbox, -⟩ := bounds_tight hd
  obtain ⟨lo', hi', hbounds, hisBox, hperm⟩ := hbox hdrawn
  obtain ⟨rfl, rfl⟩ := Prod.mk.inj (Except.ok.inj (hbounds.symm.trans hlo))
  have hlines : d'.lines.Perm d.lines := Array.perm_iff_toList_perm.2 (.swap infinite short [])
  exact ⟨hd, hdrawn, hbounds, hisBox, hperm d' hlines (.refl _)⟩

end Drawing

end Arbor
