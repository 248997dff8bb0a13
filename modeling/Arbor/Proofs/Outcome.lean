/-!
# Computations that may fail

Laws of `Except` that the proofs about rules, derivations and readers share. A computation in two
steps succeeds exactly when both do (`bind_eq_ok_iff`), and its error is that of the first step that
fails (`bind_eq_error_iff`). What a row of computations gives comes from its members, one from each
(`exists_of_mem_mapM`, `map_eq_of_mapM`), and passes a map on to them (`mapM_map`). Two computations
correspond when both succeed, with results that correspond, or both fail, with errors that do
(`Corresponds`); computations in steps correspond if their steps do.

A computation that draws from a source leaves one also where it fails. `Except` has no room for it, so
such a computation is written as an outcome with a source, and `settled` is what is seen of it from
outside.
-/

namespace Arbor.Outcome

variable {ε ε' α β : Type}

@[simp] theorem pure_eq_ok (a : α) : (pure a : Except ε α) = .ok a := rfl

@[simp] theorem ok_bind (a : α) (f : α → Except ε β) : (Except.ok a >>= f) = f a := rfl

@[simp] theorem error_bind (e : ε) (f : α → Except ε β) :
    ((Except.error e : Except ε α) >>= f) = .error e := rfl

@[simp] theorem mapError_ok (f : ε → ε') (a : α) :
    (Except.ok a : Except ε α).mapError f = .ok a := rfl

@[simp] theorem mapError_error (f : ε → ε') (e : ε) :
    (Except.error e : Except ε α).mapError f = .error (f e) := rfl

/-- Two steps succeed just if the first does, and then the second on what it gives. -/
theorem bind_eq_ok_iff {x : Except ε α} {f : α → Except ε β} {b : β} :
    (x >>= f) = .ok b ↔ ∃ a, x = .ok a ∧ f a = .ok b := by
  cases x with
  | ok a => simp
  | error e => simp

/-- Two steps fail with the error of the first that fails. -/
theorem bind_eq_error_iff {x : Except ε α} {f : α → Except ε β} {e : ε} :
    (x >>= f) = .error e ↔ x = .error e ∨ ∃ a, x = .ok a ∧ f a = .error e := by
  cases x with
  | ok a => simp
  | error d => simp

/-- Other words for errors make no success. -/
theorem mapError_eq_ok_iff {x : Except ε α} {f : ε → ε'} {a : α} :
    x.mapError f = .ok a ↔ x = .ok a := by
  cases x with
  | ok b => simp
  | error e => simp

/-- An error in other words comes from an error. -/
theorem mapError_eq_error_iff {x : Except ε α} {f : ε → ε'} {e : ε'} :
    x.mapError f = .error e ↔ ∃ d, x = .error d ∧ f d = e := by
  cases x with
  | ok a => simp
  | error d => simp

/-- A row of computations that succeeds begins with one that does, and so goes on. -/
theorem exists_of_mapM_cons {f : α → Except ε β} {a : α} {as : List α} {bs : List β}
    (h : (a :: as).mapM f = .ok bs) :
    ∃ c cs, f a = .ok c ∧ as.mapM f = .ok cs ∧ bs = c :: cs := by
  rw [List.mapM_cons, bind_eq_ok_iff] at h
  obtain ⟨c, hc, h⟩ := h
  obtain ⟨cs, hcs, h⟩ := bind_eq_ok_iff.1 h
  exact ⟨c, cs, hc, hcs, (Except.ok.inj h).symm⟩

/-- What a row of computations gives comes from its members. -/
theorem exists_of_mem_mapM {f : α → Except ε β} {as : List α} {bs : List β}
    (h : as.mapM f = .ok bs) {b : β} (hb : b ∈ bs) : ∃ a ∈ as, f a = .ok b := by
  induction as generalizing bs with
  | nil =>
    obtain rfl : [] = bs := Except.ok.inj h
    exact absurd hb List.not_mem_nil
  | cons a as ih =>
    obtain ⟨c, cs, hc, hcs, rfl⟩ := exists_of_mapM_cons h
    rcases List.mem_cons.1 hb with rfl | hb
    · exact ⟨a, List.mem_cons_self, hc⟩
    · obtain ⟨d, hd, heq⟩ := ih hcs hb
      exact ⟨d, List.mem_cons_of_mem a hd, heq⟩

/-- A row of computations fails just if one of them does. -/
theorem exists_mapM_eq_error_iff {f : α → Except ε β} {as : List α} :
    (∃ e, as.mapM f = .error e) ↔ ∃ a ∈ as, ∃ e, f a = .error e := by
  induction as with
  | nil => exact iff_of_false nofun nofun
  | cons a as ih =>
    simp only [List.mapM_cons, List.mem_cons, exists_eq_or_imp, ← ih]
    cases f a with
    -- the first member fails, and the row with it
    | error e => exact iff_of_true ⟨e, rfl⟩ (.inl ⟨e, rfl⟩)
    -- it does not, and the row fails as its rest does
    | ok b => cases as.mapM f <;> simp

/-- What a row of computations gives is, as far as `p` sees it, settled by the members before they
are computed, if it is so for each of them. -/
theorem map_eq_of_mapM {γ : Type} {f : α → Except ε β} {p : β → γ} {q : α → γ}
    (hf : ∀ a b, f a = .ok b → p b = q a) {as : List α} {bs : List β} (h : as.mapM f = .ok bs) :
    bs.map p = as.map q := by
  induction as generalizing bs with
  | nil =>
    obtain rfl : [] = bs := Except.ok.inj h
    rfl
  | cons a as ih =>
    obtain ⟨c, cs, hc, hcs, rfl⟩ := exists_of_mapM_cons h
    rw [List.map_cons, List.map_cons, hf a c hc, ih hcs]

/-- A row of computations passes a map on to the results if each of them does. -/
theorem mapM_map {α' β' : Type} {f : α → Except ε β} {f' : α' → Except ε β'} {p : α → α'}
    {q : β → β'} (h : ∀ a, f' (p a) = (f a).map q) (as : List α) :
    (as.map p).mapM f' = (as.mapM f).map (List.map q) := by
  induction as with
  | nil => rfl
  | cons a as ih =>
    rw [List.map_cons, List.mapM_cons, List.mapM_cons, h, ih]
    -- the row ends at its first failure, mapped or not
    cases f a with
    | error e => rfl
    | ok b => cases as.mapM f <;> rfl

/-- A row of computations that all succeed succeeds. -/
theorem mapM_eq_ok_of_forall {f : α → Except ε β} {g : α → β} {as : List α}
    (h : ∀ a ∈ as, f a = .ok (g a)) : as.mapM f = .ok (as.map g) := by
  induction as with
  | nil => rfl
  | cons a as ih =>
    rw [List.mapM_cons, h a List.mem_cons_self, ih fun b hb => h b (List.mem_cons_of_mem a hb)]
    rfl

/-- A row of computations undoes a map that each of them undoes. -/
theorem mapM_map_eq_ok {f : β → Except ε α} {g : α → β} (h : ∀ a, f (g a) = .ok a) (as : List α) :
    (as.map g).mapM f = .ok as := by
  induction as with
  | nil => rfl
  | cons a as ih =>
    rw [List.map_cons, List.mapM_cons, h, ih]
    rfl

/-- **Correspondence.** Both succeed, with results in `R`, or both fail, with errors in `P`. -/
inductive Corresponds (P : ε → ε → Prop) (R : α → α → Prop) : Except ε α → Except ε α → Prop
  | ok {a b : α} (results : R a b) : Corresponds P R (.ok a) (.ok b)
  | error {d e : ε} (errors : P d e) : Corresponds P R (.error d) (.error e)

namespace Corresponds

variable {P : ε → ε → Prop} {Q : ε' → ε' → Prop} {R : α → α → Prop} {S : β → β → Prop}
  {x y : Except ε α}

/-- Steps that correspond, after such that do, correspond. -/
theorem bind {f g : α → Except ε β} (h : Corresponds P R x y)
    (hfg : ∀ a b, R a b → Corresponds P S (f a) (g b)) : Corresponds P S (x >>= f) (y >>= g) := by
  cases h with
  | ok results => exact hfg _ _ results
  | error errors => exact .error errors

/-- Corresponding errors are put in corresponding words. -/
theorem mapError {f g : ε → ε'} (h : Corresponds P R x y) (hfg : ∀ d e, P d e → Q (f d) (g e)) :
    Corresponds Q R (x.mapError f) (y.mapError g) := by
  cases h with
  | ok results => exact .ok results
  | error errors => exact .error (hfg _ _ errors)

/-- Corresponding results are mapped to corresponding ones. -/
theorem map {f g : α → β} (h : Corresponds P R x y) (hfg : ∀ a b, R a b → S (f a) (g b)) :
    Corresponds P S (x.map f) (y.map g) := by
  cases h with
  | ok results => exact .ok (hfg _ _ results)
  | error errors => exact .error errors

/-- A computation corresponds to itself, if its results and errors do. -/
theorem refl (hP : ∀ e, P e e) (hR : ∀ a, R a a) (x : Except ε α) : Corresponds P R x x := by
  cases x with
  | ok a => exact .ok (hR a)
  | error e => exact .error (hP e)

end Corresponds

/-! ### Outcomes with a source -/

section Source

variable {σ : Type} {x : Except ε α × σ}

/-- What a computation gives, with the source that it leaves, or its error alone. -/
def settled (x : Except ε α × σ) : Except ε (α × σ) := x.1.map fun a => (a, x.2)

/-- A success shows its source. -/
theorem settled_eq_ok_iff {a : α} {g : σ} : settled x = .ok (a, g) ↔ x = (.ok a, g) := by
  obtain ⟨outcome, g'⟩ := x
  cases outcome <;> simp [settled, Except.map]

/-- A failure does not show its source, but it has one. -/
theorem settled_eq_error_iff {e : ε} : settled x = .error e ↔ ∃ g, x = (.error e, g) := by
  obtain ⟨outcome, g'⟩ := x
  cases outcome <;> simp [settled, Except.map]

/-- Corresponding outcomes with the same source correspond from outside. -/
theorem Corresponds.settled {P : ε → ε → Prop} {R : α → α → Prop} {y : Except ε α × σ}
    (h : Corresponds P R x.1 y.1) (hsource : x.2 = y.2) :
    Corresponds P (fun p q => p.2 = q.2 ∧ R p.1 q.1) (Outcome.settled x) (Outcome.settled y) :=
  h.map fun _ _ hab => ⟨hsource, hab⟩

end Source

end Arbor.Outcome
