import Mathlib.Data.List.Forall2

/-!
# Going down a list until something does not pass

The choice of a rule goes through its candidates in order until one of them decides, and a check of
settings goes through its requirements until one of them is violated. How far such a way down a list
comes is said without an order of evaluation: a member is reached if all members before it pass
(`ReachedIn`). Two ways that stop at each other's ends are one way (`ReachedIn.unique`), and a list
with a member that does not pass has a first one (`exists_reachedIn`). A lookup, too, goes down a
list; what it finds is a member (`mem_of_lookup`), and it finds the same under other keys
(`lookup_map`). Where two lists go together member by member, what is in one of them has its partner in
the other (`exists_of_forall₂`).
-/

namespace Arbor

variable {α : Type} {p q : α → Prop} {a b : α} {as bs : List α}

/-- **Reach.** Going down a list one comes to `a`, because all members before it pass. -/
def ReachedIn (p : α → Prop) (as : List α) (a : α) : Prop :=
  ∃ before after, as = before ++ a :: after ∧ ∀ b ∈ before, p b

/-- Nothing is reached in a list of nothing. -/
@[simp] theorem not_reachedIn_nil : ¬ ReachedIn p [] a := by
  rintro ⟨before, after, h, -⟩
  simp at h

/-- The first member is reached, and the others if it passes. -/
theorem reachedIn_cons : ReachedIn p (b :: as) a ↔ a = b ∨ p b ∧ ReachedIn p as a := by
  constructor
  · rintro ⟨before, after, h, hp⟩
    cases before with
    -- nothing stands before it: it is the first member itself
    | nil =>
      simp only [List.nil_append, List.cons.injEq] at h
      exact .inl h.1.symm
    -- the first member stands before it, and passes
    | cons c before =>
      simp only [List.cons_append, List.cons.injEq] at h
      obtain ⟨rfl, rfl⟩ := h
      exact .inr ⟨hp b (by simp), before, after, rfl, fun d hd => hp d (by simp [hd])⟩
  · rintro (rfl | ⟨hb, before, after, rfl, hp⟩)
    · exact ⟨[], as, rfl, by simp⟩
    · refine ⟨b :: before, after, rfl, ?_⟩
      simpa using ⟨hb, hp⟩

/-- What is reached is a member. -/
theorem ReachedIn.mem (h : ReachedIn p as a) : a ∈ as := by
  obtain ⟨before, after, rfl, -⟩ := h
  simp

/-- What is reached by passing in one sense is reached by passing in a weaker one. -/
theorem ReachedIn.imp (h : ReachedIn p as a) (hpq : ∀ b ∈ as, p b → q b) : ReachedIn q as a := by
  obtain ⟨before, after, rfl, hp⟩ := h
  exact ⟨before, after, rfl, fun b hb => hpq b (by simp [hb]) (hp b hb)⟩

/-- Two ways down a list that stop at each other's ends are one way. -/
theorem ReachedIn.unique (ha : ReachedIn p as a) (hb : ReachedIn q as b) (hqa : ¬ q a)
    (hpb : ¬ p b) : a = b := by
  induction as with
  | nil => exact absurd ha not_reachedIn_nil
  | cons c as ih =>
    rcases reachedIn_cons.1 ha with rfl | ⟨hpc, ha⟩
    · -- the first way stops at the first member, which the second would have to pass
      rcases reachedIn_cons.1 hb with rfl | ⟨hqc, -⟩
      · rfl
      · exact absurd hqc hqa
    · -- the second way stops there, and the first would have to pass
      rcases reachedIn_cons.1 hb with rfl | ⟨-, hb⟩
      · exact absurd hpc hpb
      · exact ih ha hb

/-- A list with a member that does not pass has a first one. -/
theorem exists_reachedIn (h : ∃ a ∈ as, ¬ p a) : ∃ a, ReachedIn p as a ∧ ¬ p a := by
  induction as with
  | nil => simp at h
  | cons b as ih =>
    -- the first member passes, so the one that does not is among the others
    by_cases hb : p b
    · obtain ⟨a, ha, hpa⟩ := h
      have htail : ∃ a ∈ as, ¬ p a := by
        rcases List.mem_cons.1 ha with rfl | ha
        · exact absurd hb hpa
        · exact ⟨a, ha, hpa⟩
      obtain ⟨c, hc, hpc⟩ := ih htail
      exact ⟨c, reachedIn_cons.2 (.inr ⟨hb, hc⟩), hpc⟩
    · -- the first member does not pass, and nothing stands before it
      exact ⟨b, reachedIn_cons.2 (.inl rfl), hb⟩

/-- The members of the second of two lists are reached behind those of the first, if these all
pass. -/
theorem reachedIn_append :
    ReachedIn p (as ++ bs) a ↔ ReachedIn p as a ∨ (∀ b ∈ as, p b) ∧ ReachedIn p bs a := by
  induction as with
  | nil => simp
  | cons b as ih =>
    rw [List.cons_append, reachedIn_cons, reachedIn_cons, ih, List.forall_mem_cons, and_or_left,
      or_assoc, and_assoc]

/-- A member of a list has a partner in a list that goes with it. -/
theorem exists_of_forall₂ {β : Type} {R : α → β → Prop} {bs : List β}
    (h : List.Forall₂ R as bs) (ha : a ∈ as) : ∃ b ∈ bs, R a b := by
  induction h with
  | nil => exact absurd ha List.not_mem_nil
  | @cons a' b _ bs first _ ih =>
    -- the partner stands at the same place
    rcases List.mem_cons.1 ha with rfl | ha
    · exact ⟨b, List.mem_cons_self, first⟩
    · obtain ⟨b, hb, hab⟩ := ih ha
      exact ⟨b, List.mem_cons_of_mem _ hb, hab⟩

/-- What a lookup finds is a member. -/
theorem mem_of_lookup {key : String} {entries : List (String × α)}
    (h : entries.lookup key = some a) : (key, a) ∈ entries := by
  obtain ⟨before, after, rfl, -⟩ := List.lookup_eq_some_iff.1 h
  simp

/-- Where no two keys are made one, a lookup finds under the new key what it found under the old
one. -/
theorem lookup_map {β : Type} {π : String → String} (hπ : Function.Injective π) (f : α → β)
    (key : String) (entries : List (String × α)) :
    (entries.map (Prod.map π f)).lookup (π key) = (entries.lookup key).map f := by
  induction entries with
  | nil => rfl
  | cons entry entries ih =>
    obtain ⟨other, a⟩ := entry
    -- different keys stay different, so the comparison has the same outcome
    have hkey : (π key == π other) = (key == other) := by
      rw [Bool.eq_iff_iff, beq_iff_eq, beq_iff_eq]
      exact ⟨fun h => hπ h, congrArg π⟩
    rw [List.map_cons, Prod.map_apply, List.lookup_cons, List.lookup_cons, hkey, ih]
    cases key == other <;> rfl

end Arbor
