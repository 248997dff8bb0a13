import Arbor.Proofs.Settings.Reading

/-!
# Refusals that are no fault of the settings

Every refusal names a fault of the settings, but for one: a whole number that has no double is met by an
error that says nothing of its place (`Error.IsFault`). It comes up in one way only, where a number is
asked for and such a whole number stands, behind requirements that are all met (`parse_isFault_iff`).
-/

namespace Arbor.Settings

open Requirement

/-- A refusal that names what is wrong with the settings. -/
def Error.IsFault (e : Error) : Prop := e ≠ .tooLarge

/-- The refusal of a whole number that is too large comes of a number that is asked to fit. -/
theorem parse_eq_tooLarge_iff {v : Value} :
    parse v = .error .tooLarge ↔
      ∃ n, (Numeral.ofInt n).isInf = true ∧ ReachedIn Met (requirements v) (fits (.int n)) := by
  rw [(enforces_parse v).error_iff]
  constructor
  · rintro ⟨r, hreached, hr⟩
    obtain ⟨n, rfl, hinf, -⟩ := oversized_of_mem r hreached.mem hr
    exact ⟨n, hinf, hreached⟩
  · rintro ⟨n, hinf, hreached⟩
    exact ⟨_, hreached, by simp [fits, need, hinf]⟩

/-- **Refusals name faults** of the settings, unless a whole number past the doubles stands where a number
is asked for and all that is asked before is met. In particular they do where all whole numbers in the
value have doubles. -/
theorem parse_isFault_iff (v : Value) :
    ((∀ e, parse v = .error e → e.IsFault) ↔
      ∀ n, (Numeral.ofInt n).isInf = true → ¬ ReachedIn Met (requirements v) (fits (.int n))) ∧
    ((∀ n, Value.Inside (.int n) v → (Numeral.ofInt n).isInf = false) →
      ∀ e, parse v = .error e → e.IsFault) := by
  have hfault : (∀ e, parse v = .error e → e.IsFault) ↔ ¬ parse v = .error .tooLarge := by
    constructor
    · exact fun h he => h _ he rfl
    · rintro h e he rfl
      exact h he
  rw [hfault, parse_eq_tooLarge_iff]
  refine ⟨by simp only [not_exists, not_and], ?_⟩
  -- a number that is asked to fit, and does not, is inside the value
  rintro hfits ⟨n, hinf, hreached⟩
  obtain ⟨m, hm, hinf', hinside⟩ :=
    oversized_of_mem _ hreached.mem (by simp [fits, need, hinf])
  rw [hfits m hinside] at hinf'
  cases hinf'

/-- A length of a step past the doubles. -/
theorem parse_tooLarge_step :
    parse (.object [("axiom", .str "F"), ("turtle", .object [("step", .int (10 ^ 400))])]) =
      .error .tooLarge ∧ ¬ Error.tooLarge.IsFault := by
  refine ⟨?_, fun h => h rfl⟩
  generalize hv : Value.object _ = v
  have h : (parse v).map (fun _ => ()) = .error .tooLarge := by
    rw [← hv]
    decide +kernel
  cases hparse : parse v with
  | ok c => simp [hparse, Except.map] at h
  | error e => simpa [hparse, Except.map] using h

end Arbor.Settings
