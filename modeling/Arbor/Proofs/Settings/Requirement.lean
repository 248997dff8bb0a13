import Mathlib.Data.List.Forall2
import Arbor.Proofs.Outcome
import Arbor.Proofs.Reach

/-!
# Requirements in order

A reader of settings looks at one thing after another and reports the first that is wrong. What it
looks at is a list of requirements, and a requirement is given by what is reported where it is violated
(`Requirement`). The errors of a computation are those of a list of requirements if it fails exactly as
the first violated one reports (`Enforces`).

This is kept by the ways in which readers are put together. A computation in two steps enforces what
the first step does and then what the second does (`Enforces.bind`), and a row of computations enforces
what its members do, one after the other (`Enforces.mapM`). So a reader needs one lemma that lists its
requirements, and its order of evaluation is that of the list.
-/

namespace Arbor

open Outcome

variable {ε ε' α β : Type}

/-- **Requirement**, given by what is reported where it is violated. -/
def Requirement (ε : Type) : Type := ε → Prop

namespace Requirement

/-- A requirement is met if there is nothing to report. -/
def Met (r : Requirement ε) : Prop := ∀ e, ¬ r e

/-- The requirement that something holds, with one error if it does not. -/
def need (p : Prop) (e : ε) : Requirement ε := fun d => ¬ p ∧ d = e

/-- The requirement that a computation succeeds, with its error if it does not. -/
def succeeds (x : Except ε α) : Requirement ε := fun e => x = .error e

/-- A requirement whose errors are put in other words. -/
def map (f : ε → ε') (r : Requirement ε) : Requirement ε' := fun e => ∃ d, r d ∧ e = f d

/-- A requirement of a fact is met if the fact holds. -/
@[simp] theorem met_need {p : Prop} {e : ε} : (need p e).Met ↔ p := by
  simp [Met, need]

/-- No other error is reported than the one. -/
theorem not_need_of_ne {p : Prop} {d e : ε} (h : d ≠ e) : ¬ need p e d := fun hd => h hd.2

/-- Errors do not matter for what is met. -/
@[simp] theorem met_map {f : ε → ε'} {r : Requirement ε} : (r.map f).Met ↔ r.Met := by
  constructor
  · exact fun h d hd => h (f d) ⟨d, hd, rfl⟩
  · rintro h _ ⟨d, hd, -⟩
    exact h d hd

/-- **Report.** The first requirement that is violated has this error. -/
def Reports (l : List (Requirement ε)) (e : ε) : Prop := ∃ r, ReachedIn Met l r ∧ r e

theorem not_reports_nil (e : ε) : ¬ Reports [] e := by simp [Reports]

/-- What is reported is the error of the first requirement, or of a later one if the first is
met. -/
theorem reports_cons {r : Requirement ε} {l : List (Requirement ε)} {e : ε} :
    Reports (r :: l) e ↔ r e ∨ r.Met ∧ Reports l e := by
  simp only [Reports, reachedIn_cons, or_and_right, exists_or, exists_eq_left, and_assoc,
    exists_and_left]

/-- One requirement reports its own errors. -/
theorem reports_singleton {r : Requirement ε} {e : ε} : Reports [r] e ↔ r e := by
  simp [reports_cons, not_reports_nil]

/-- Requirements in two lists report like those of the first, or like those of the second if the
first are met. -/
theorem reports_append {l l' : List (Requirement ε)} {e : ε} :
    Reports (l ++ l') e ↔ Reports l e ∨ (∀ r ∈ l, r.Met) ∧ Reports l' e := by
  simp only [Reports, reachedIn_append, or_and_right, exists_or, and_assoc, exists_and_left]

/-- Where something is reported, not all requirements are met. -/
theorem Reports.not_met {l : List (Requirement ε)} {e : ε} (h : Reports l e) : ¬ ∀ r ∈ l, r.Met := by
  obtain ⟨r, hreached, hr⟩ := h
  exact fun hmet => hmet r hreached.mem e hr

/-- Where not all requirements are met, something is reported. -/
theorem exists_reports {l : List (Requirement ε)} (h : ¬ ∀ r ∈ l, r.Met) : ∃ e, Reports l e := by
  have hviolated : ∃ r ∈ l, ¬ r.Met := by simpa using h
  obtain ⟨r, hreached, hr⟩ := exists_reachedIn hviolated
  obtain ⟨e, he⟩ := not_forall_not.1 hr
  exact ⟨e, r, hreached, he⟩

/-- Errors are renamed as they are reported. -/
theorem reports_map {f : ε → ε'} {l : List (Requirement ε)} {e : ε'} :
    Reports (l.map (map f)) e ↔ ∃ d, Reports l d ∧ e = f d := by
  induction l with
  | nil => simp [Reports]
  | cons r l ih =>
    rw [List.map_cons, reports_cons, ih, met_map]
    simp only [reports_cons]
    constructor
    · -- the first requirement that is not met is the first one of the list, or behind it
      rintro (⟨d, hd, rfl⟩ | ⟨hr, d, hd, rfl⟩)
      · exact ⟨d, .inl hd, rfl⟩
      · exact ⟨d, .inr ⟨hr, hd⟩, rfl⟩
    · rintro ⟨d, hd | ⟨hr, hd⟩, rfl⟩
      · exact .inl ⟨d, hd, rfl⟩
      · exact .inr ⟨hr, d, hd, rfl⟩

end Requirement

open Requirement

/-- **Enforcement.** A computation fails exactly as the first violated requirement reports, and what it
gives otherwise is in `P`. -/
structure Enforces (x : Except ε α) (l : List (Requirement ε)) (P : α → Prop) : Prop where
  error_iff : ∀ e, x = .error e ↔ Reports l e
  result : ∀ a, x = .ok a → P a

namespace Enforces

variable {x : Except ε α} {l l' : List (Requirement ε)} {P : α → Prop} {Q : β → Prop}

/-- There is a result exactly if all requirements are met. -/
theorem exists_ok_iff (h : Enforces x l P) : (∃ a, x = .ok a) ↔ ∀ r ∈ l, r.Met := by
  constructor
  · rintro ⟨a, rfl⟩
    -- if one is not met an error is reported, and there is none
    by_contra hmet
    obtain ⟨e, he⟩ := exists_reports hmet
    cases (h.error_iff e).2 he
  · intro hmet
    cases x with
    | ok a => exact ⟨a, rfl⟩
    | error e => exact absurd hmet ((h.error_iff e).1 rfl).not_met

/-- What always succeeds enforces nothing. -/
theorem ok {a : α} (ha : P a) : Enforces (.ok a : Except ε α) [] P where
  error_iff e := by simp [not_reports_nil]
  result b hb := by
    obtain rfl := Except.ok.inj hb
    exact ha

/-- A failure enforces what it reports, whatever comes behind. -/
theorem error {p : Prop} (hp : ¬ p) (e : ε) (l : List (Requirement ε)) (P : α → Prop) :
    Enforces (.error e) (need p e :: l) P where
  error_iff d := by simp [reports_cons, need, hp, eq_comm, Met]
  result _ h := by cases h

/-- A requirement that is met does no harm. -/
theorem cons {r : Requirement ε} (hr : r.Met) (h : Enforces x l P) : Enforces x (r :: l) P where
  error_iff e := by
    rw [reports_cons, h.error_iff]
    exact ⟨fun hl => .inr ⟨hr, hl⟩, fun hl => (hl.resolve_left (hr e)).2⟩
  result := h.result

/-- A condition that is looked at, in other words perhaps. -/
theorem ite {p q : Prop} [Decidable p] (h : p ↔ q) (e : ε) :
    Enforces (if p then .ok () else .error e) [need q e] fun _ => q := by
  by_cases hp : p
  · rw [if_pos hp]
    exact (ok (h.1 hp)).cons (met_need.2 (h.1 hp))
  · rw [if_neg hp]
    exact error (mt h.2 hp) e [] _

/-- A computation enforces that it succeeds. -/
theorem self (x : Except ε α) : Enforces x [succeeds x] fun a => x = .ok a where
  error_iff e := by
    rw [reports_singleton]
    exact Iff.rfl
  result _ h := h

/-- A result is described by what follows from its description. -/
theorem imp {P' : α → Prop} (h : Enforces x l P) (hP : ∀ a, P a → P' a) : Enforces x l P' where
  error_iff := h.error_iff
  result a ha := hP a (h.result a ha)

/-- **Two steps** enforce what the first does, and then what the second does. -/
theorem bind {f : α → Except ε β} (h : Enforces x l P) (hf : ∀ a, P a → Enforces (f a) l' Q) :
    Enforces (x >>= f) (l ++ l') Q where
  error_iff e := by
    -- the second step is reached exactly if all is met that the first one asks
    rw [bind_eq_error_iff, reports_append, h.error_iff, ← h.exists_ok_iff]
    refine or_congr_right ?_
    constructor
    · rintro ⟨a, ha, hfa⟩
      exact ⟨⟨a, ha⟩, ((hf a (h.result a ha)).error_iff e).1 hfa⟩
    · rintro ⟨⟨a, ha⟩, hl'⟩
      exact ⟨a, ha, ((hf a (h.result a ha)).error_iff e).2 hl'⟩
  result b hb := by
    obtain ⟨a, ha, hfa⟩ := bind_eq_ok_iff.1 hb
    exact (hf a (h.result a ha)).result b hfa

/-- A last step that cannot fail. -/
theorem bind_ok {f : α → β} (h : Enforces x l P) (hf : ∀ a, P a → Q (f a)) :
    Enforces (x >>= fun a => .ok (f a)) l Q := by
  rw [← List.append_nil l]
  exact h.bind fun a ha => ok (hf a ha)

/-- Renaming errors does not change what is enforced. -/
theorem mapError (h : Enforces x l P) (f : ε → ε') :
    Enforces (x.mapError f) (l.map (Requirement.map f)) P where
  error_iff e := by
    rw [reports_map]
    simp only [← h.error_iff]
    -- errors are renamed one by one, and results are left
    cases x with
    | ok a => simp
    | error d => simp [eq_comm]
  result a ha := h.result a (mapError_eq_ok_iff.1 ha)

/-- **A row of computations** enforces what its members do, one after the other. -/
theorem mapM {f : α → Except ε β} {l : α → List (Requirement ε)} {R : α → β → Prop}
    (h : ∀ a, Enforces (f a) (l a) (R a)) (as : List α) :
    Enforces (as.mapM f) (as.flatMap l) fun bs => List.Forall₂ R as bs := by
  induction as with
  | nil => exact ok .nil
  | cons a as ih =>
    rw [List.mapM_cons, List.flatMap_cons]
    exact (h a).bind fun b hb => ih.bind_ok fun bs hbs => .cons hb hbs

end Enforces

end Arbor
