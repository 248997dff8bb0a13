import Arbor.Plant
import Arbor.Proofs.Turtle.Journey

/-!
# The history of a plant

A plant answers requests one after the other, and some of them it refuses: it cannot grow to a negative
depth, or where a rule has no value, and it cannot be drawn with an infinite angle. Nothing of that
shows later. After any history the word of a plant is the one that its depth derives from the start
word, with draws from its seed taken anew, and the answer to a request is the one that a plant without
a history gives, but for what is asked of the present word (`Plant.respond_after`).

Three things would break this: growing from the present word, going on with the draws of an earlier
request, and changing word or depth when the other cannot be changed. None of them happens, since a
request to grow is answered from the start word and the seed alone (`Plant.wordAt`), and a plant is
only replaced when there is an answer (`Plant.respond_grow`). So one request keeps the invariant
(`Plant.GrownFrom`), and a history does. In a drawing the depth is the exponent of contracting moves,
which no symbol changes (`Turtle.contraction_executeFrom`).
-/

namespace Arbor

/-! ### The exponent of a drawing -/

namespace Turtle

variable {α : Type} [Scalar α] {setup : Setup α} {depth : Int}

/-- Moves and adjustments keep the exponent of contracting moves. -/
theorem keeps_contraction : Keeps setup fun p : Pose α => p.contraction = depth where
  moved _ _ hp := hp
  adjusted _ _ hp h := h.contraction_eq.trans hp

/-- A fresh turtle has the depth for its exponent. -/
theorem contraction_initial {t : Turtle α} (h : Turtle.initial setup depth = .ok t) :
    ∀ p ∈ t.poses, p.contraction = depth := by
  obtain ⟨frame, rfl⟩ := exists_of_initial h
  intro p hp
  rw [List.mem_singleton.1 hp]

/-- **The exponent of a drawing** is the depth that it is made with, at every symbol. -/
theorem contraction_executeFrom {t : Turtle α} (h : Turtle.initial setup depth = .ok t)
    (table : Table) (w : List (Symbol α)) :
    (t.executeFrom setup table 0 w).1.pose.contraction = depth :=
  poses_executeFrom keeps_contraction w (contraction_initial h) _ List.mem_cons_self

end Turtle

namespace Plant

/-! ### One request -/

/-- The word of a plant at a depth, or why there is none. -/
def wordAt (p : Plant) (depth : Int) : Except DeriveError Word :=
  (p.grammar.iterate none depth (Twister.ofSeed p.seed)).map Prod.fst

/-- The plant after a request. -/
def next (p : Plant) (r : Request) : Plant := ((respond r).run p).2

/-- The plant after a history of requests, the first one first. -/
def after (p : Plant) (past : List Request) : Plant := past.foldl next p

variable {p₀ p : Plant}

/-- A plant that grows has the word of the depth, if there is one. -/
theorem grow_eq (p : Plant) (depth : Int) :
    p.grow depth = (p.wordAt depth).map fun word => { p with word, depth := depth.toNat } := by
  unfold grow wordAt
  cases p.grammar.iterate none depth (Twister.ofSeed p.seed) <;> rfl

/-- There is a word at a depth only if the depth is not negative. -/
theorem nonneg_of_wordAt {depth : Int} {word : Word} (h : p.wordAt depth = .ok word) : 0 ≤ depth := by
  unfold wordAt Grammar.iterate at h
  split at h
  · cases h
  · next hdepth => exact Int.not_lt.1 hdepth

/-- The word at a depth is what so many steps make of the start word. -/
theorem exists_derive_of_wordAt {depth : Nat} {word : Word} (h : p.wordAt depth = .ok word) :
    ∃ g, p.grammar.derive p.grammar.start depth (Twister.ofSeed p.seed) = .ok (word, g) := by
  have hdepth : ¬ (depth : Int) < 0 := Int.not_lt.2 (Int.natCast_nonneg depth)
  -- the depth of a plant is a number from zero on, so it is not refused
  rw [wordAt, Grammar.iterate, if_neg hdepth, Int.toNat_natCast, Option.getD_none] at h
  cases hderive : p.grammar.derive p.grammar.start depth (Twister.ofSeed p.seed) with
  | error e =>
    rw [hderive] at h
    cases h
  | ok out =>
    rw [hderive] at h
    exact ⟨out.2, by rw [← Except.ok.inj h]⟩

/-- **A request to grow.** Word and depth change together, or the plant stays as it is. -/
theorem respond_grow (p : Plant) (depth : Int) :
    (respond (.grow depth)).run p =
      (.grown (p.wordAt depth),
        match p.wordAt depth with
        | .ok word => { p with word, depth := depth.toNat }
        | .error _ => p) := by
  simp only [respond, StateT.run_bind, StateT.run_get, pure_bind]
  rw [grow_eq]
  cases p.wordAt depth with
  | ok word => rfl
  | error e => rfl

/-- **A request to draw** leaves the plant as it is. -/
theorem respond_draw (p : Plant) (word : Option Word) :
    (respond (.draw word)).run p = (.drawn (p.draw word), p) := rfl

/-! ### A history -/

/-- **Invariant.** A plant has come from another by growing: it has what is needed to grow from there,
and the word of its depth. -/
structure GrownFrom (p₀ p : Plant) : Prop where
  grammar : p.grammar = p₀.grammar
  setup : p.setup = p₀.setup
  table : p.table = p₀.table
  seed : p.seed = p₀.seed
  word : p₀.wordAt p.depth = .ok p.word

/-- The words of a plant are those of the plant it has grown from. -/
theorem GrownFrom.wordAt_eq (h : GrownFrom p₀ p) (depth : Int) :
    p.wordAt depth = p₀.wordAt depth := by
  rw [wordAt, wordAt, h.grammar, h.seed]

/-- A request keeps the invariant. -/
theorem GrownFrom.next (h : GrownFrom p₀ p) (r : Request) : GrownFrom p₀ (p.next r) := by
  cases r with
  | draw word => exact h
  | grow depth =>
    rw [Plant.next, respond_grow, h.wordAt_eq]
    cases hword : p₀.wordAt depth with
    | error e => exact h
    | ok word =>
      -- a depth that has a word is not negative, so it is not changed when it is kept
      have hdepth : (depth.toNat : Int) = depth := Int.toNat_of_nonneg (nonneg_of_wordAt hword)
      refine ⟨h.grammar, h.setup, h.table, h.seed, ?_⟩
      show p₀.wordAt depth.toNat = .ok word
      rw [hdepth, hword]

/-- A history keeps the invariant. -/
theorem GrownFrom.after (h : GrownFrom p₀ p) (past : List Request) : GrownFrom p₀ (p.after past) := by
  induction past generalizing p with
  | nil => exact h
  | cons r past ih => exact ih (h.next r)

/-- **Plants keep their word.** Whatever has been asked of a plant, with or without success, its word is
the one that its depth derives from the start word with draws from its seed; a request to grow is
answered as if it were the first, and leaves word and depth alone if it fails; a request to draw leaves
the plant alone. So contracting moves have the number of steps that made the word for their exponent. -/
theorem respond_after (grammar : Grammar) (setup : Setup Float) (table : Table) (seed : Int)
    (past : List Request) :
    let fresh : Plant := { grammar, setup, table, seed }
    let p := fresh.after past
    (p.grammar = grammar ∧ p.setup = setup ∧ p.table = table ∧ p.seed = seed) ∧
    (∃ g, grammar.derive grammar.start p.depth (Twister.ofSeed seed) = .ok (p.word, g)) ∧
    (∀ depth : Int, (respond (.grow depth)).run p =
      (.grown (fresh.wordAt depth),
        match fresh.wordAt depth with
        | .ok word => { p with word, depth := depth.toNat }
        | .error _ => p)) ∧
    (∀ (depth : Int) (word : Word), fresh.wordAt depth = .ok word → 0 ≤ depth) ∧
    (∀ word : Option Word, (respond (.draw word)).run p =
      (.drawn (Turtle.interpret setup table p.depth (word.getD p.word)), p)) ∧
    ∀ t, Turtle.initial setup p.depth = .ok t → ∀ w,
      (t.executeFrom setup table 0 w).1.pose.contraction = p.depth := by
  intro fresh p
  -- a plant is grown from itself, and requests keep what it is grown from
  have hfresh : GrownFrom fresh fresh := ⟨rfl, rfl, rfl, rfl, rfl⟩
  have h : GrownFrom fresh p := hfresh.after past
  refine ⟨⟨h.grammar, h.setup, h.table, h.seed⟩, exists_derive_of_wordAt h.word, fun depth => ?_,
    fun depth word => nonneg_of_wordAt, fun word => ?_, fun t ht w => ?_⟩
  · rw [respond_grow, h.wordAt_eq]
  · rw [respond_draw, draw, h.setup, h.table]
  · exact Turtle.contraction_executeFrom ht table w

/-- A plant that grows for two steps and has no word after three, with both refusals in its past. -/
theorem respond_after_refusals :
    let rule : Rule :=
      { predecessor := "A", params := ["x"]
        successor := [⟨"A", [.bin .sub (.var "x") (.num 1.0)], false⟩,
          ⟨"B", [.bin .div (.num 1.0) (.var "x")], false⟩] }
    let grammar : Grammar := { start := [⟨"A", [2.0], false⟩], groups := [("A", [rule])] }
    let fresh : Plant := { grammar }
    let p := fresh.after [.grow 2, .grow 3, .draw none, .grow (-1)]
    let stuck : StepError := .noValue ⟨"A", [0.0], false⟩ 0 (.divisionByZero 1.0)
    p.depth = 2 ∧ p.word = [⟨"A", [0.0], false⟩, ⟨"B", [1.0], false⟩, ⟨"B", [0.5], false⟩] ∧
      (respond (.grow 3)).run p = (.grown (.error (.step stuck)), p) ∧
      (respond (.grow (-1))).run p = (.grown (.error (.negativeDepth (-1))), p) ∧
      ∃ t, Turtle.initial Setup.standard 2 = .ok t ∧
        (t.executeFrom Setup.standard Table.standard 0 p.word).1.pose.contraction = 2 := by
  intro rule grammar fresh p stuck
  have hdepth : p.depth = 2 := by decide +kernel
  have hword : p.word = [⟨"A", [0.0], false⟩, ⟨"B", [1.0], false⟩, ⟨"B", [0.5], false⟩] := by
    decide +kernel
  -- one step more divides by zero
  have hstuck : fresh.wordAt 3 = .error (.step stuck) := rfl
  have hnegative : fresh.wordAt (-1) = .error (.negativeDepth (-1)) := rfl
  obtain ⟨-, -, hgrow, -, -, hexponent⟩ := respond_after grammar Setup.standard Table.standard
    defaultSeed [.grow 2, .grow 3, .draw none, .grow (-1)]
  obtain ⟨t, ht⟩ : ∃ t, Turtle.initial Setup.standard 2 = .ok t := ⟨_, rfl⟩
  refine ⟨hdepth, hword, ?_, ?_, t, ht, ?_⟩
  · exact (hgrow 3).trans (by rw [hstuck])
  · exact (hgrow (-1)).trans (by rw [hnegative])
  · have ht' : Turtle.initial Setup.standard p.depth = .ok t := by rw [hdepth]; exact ht
    exact (hexponent t ht' p.word).trans (by rw [hdepth]; rfl)

end Plant

end Arbor
