import Arbor.Proofs.Derivation.Renaming
import Arbor.Proofs.Turtle.Journey
import Arbor.Proofs.Turtle.Relabelling

/-!
# Drawings under other names

A turtle has no idea of its own what a name means. It asks its table, and it copies the name of a
symbol to what it writes down: to the patch that the symbol places, and to the mistake that the
symbol leads to. So if the names of a word and of the table are exchanged, the same is drawn and the
same mistakes are made, under the new names (`Turtle.interpret_rename`). The exchange is a
relabelling (`Turtle.reads_exchange`).

Together with derivations under other names this says that no name is reserved (`no_name_reserved`).
Any name may be used for any purpose, brackets included, if rules, word and table agree on it.
-/

namespace Arbor

/-! ### Renaming -/

section Rename

variable {α : Type} (π : String → String)

/-- The table with every name replaced by its new one. -/
def Table.rename (table : Table) : Table := ⟨table.entries.map (Prod.map π id)⟩

/-- The patch under its new name, at the same place. -/
def Patch.rename (p : Patch α) : Patch α := { p with name := π p.name }

/-- The mistake at the same position, for the symbol under its new name. -/
def Mistake.rename (m : Mistake α) : Mistake α :=
  { m with symbol := m.symbol.map (Symbol.rename π) }

/-- The drawing with new names for the patches and in the mistakes; lines and polygons have no
names. -/
def Drawing.rename (d : Drawing α) : Drawing α :=
  { d with
    patches := d.patches.map (Patch.rename π)
    mistakes := d.mistakes.map (Mistake.rename π) }

/-- The turtle in the same state, with its drawing under the new names. -/
def Turtle.rename (t : Turtle α) : Turtle α := { t with drawing := t.drawing.rename π }

/-- A name has the operation that its new name has in the new table. -/
theorem Table.find_rename {π : String → String} (hπ : Function.Injective π) (table : Table)
    (name : String) : (table.rename π).find (π name) = table.find name := by
  rw [find, rename, lookup_map hπ, Option.map_id, id_eq, find]

end Rename

/-! ### Drawing -/

namespace Turtle

variable {α : Type} {π : String → String}

/-- An exchange of names as a relabelling. -/
def exchange (π : String → String) : Relabelling α where
  mistake := Mistake.rename π
  patch := Patch.rename π

/-- To rename a record is to relabel it in this way. -/
theorem relabelled_exchange (t : Turtle α) : t.relabelled (exchange π) = t.rename π := by
  simp [relabelled, Drawing.relabelled, exchange, rename, Drawing.rename]

/-- A fresh turtle has no name to be exchanged. -/
theorem rename_fresh (pose : Pose α) : Turtle.rename π { pose } = { pose } := by
  simp [rename, Drawing.rename]

/-- A symbol says under its new name what it says under its old one. -/
theorem reads_exchange (hπ : Function.Injective π) (table : Table) (i : Nat) (s : Symbol α) :
    (exchange π).Reads table (table.rename π) i i s (s.rename π) :=
  ⟨rfl, rfl, table.find_rename hπ s.name, fun _ => rfl, fun p hname => by
    rw [Symbol.rename, ← hname]
    rfl⟩

variable [Scalar α]

/-- **A run** under the new names, from any turtle, to its end or to the same fault. -/
theorem run_rename (hπ : Function.Injective π) (setup : Setup α) (table : Table)
    (w : List (Symbol α)) (t : Turtle α) :
    (t.rename π).run setup (table.rename π) (w.map (Symbol.rename π)) =
      Prod.map (rename π) id (t.run setup table w) := by
  -- positions stay as they are, so each is followed by the next one
  have hword := t.executeFrom_relabelled setup (reads_exchange hπ table) (fun _ => rfl) 0 w
  have hclose (t : Turtle α) (n : Nat) : (t.rename π).close n = (t.close n).rename π := by
    rw [← relabelled_exchange, ← relabelled_exchange]
    exact t.close_relabelled fun _ => rfl
  rw [relabelled_exchange, relabelled_exchange] at hword
  rw [run, run, hword, List.length_map]
  obtain ⟨t₁, fault | fault⟩ := t.executeFrom setup table 0 w
  · exact Prod.ext (hclose t₁ w.length) rfl
  · rfl

/-- **A drawing** under the new names. -/
theorem interpret_rename (hπ : Function.Injective π) (setup : Setup α) (table : Table) (depth : Int)
    (w : List (Symbol α)) :
    interpret setup (table.rename π) depth (w.map (Symbol.rename π)) =
      (interpret setup table depth w).map (Drawing.rename π) := by
  unfold interpret initial
  cases Pose.initial setup depth with
  | error fault => rfl
  | ok pose =>
    -- a fresh turtle has no names in it
    have hrun := run_rename hπ setup table w { pose }
    rw [rename_fresh] at hrun
    simp only [Outcome.ok_bind, Outcome.pure_eq_ok, hrun]
    obtain ⟨t, fault | fault⟩ := Turtle.run setup table w { pose } <;> rfl

end Turtle

/-! ### Both together -/

/-- **No name is reserved.** If all names are exchanged for others and different names stay
different, then whatever is done with them is done under the new names. A grammar of renamed rules
is the renamed grammar. It derives from the renamed word the renamed outcome, to every depth and
with the same draws, or it fails as before, at the same step and position and with the source left
at the same place. Turtles draw the renamed word by the renamed table as before, with the new names
for patches and in mistakes, or they meet the same fault. -/
theorem no_name_reserved {π : String → String} (hπ : Function.Injective π) :
    (∀ (gr : Grammar) (rules : List Rule),
      (gr.rename π).insertAll (rules.map (Rule.rename π)) = (gr.insertAll rules).rename π) ∧
    (∀ {σ : Type} [Draws σ] (gr : Grammar) (start : Option Word) (depth : Int) (g : σ),
      (gr.rename π).iterate (start.map (List.map (Symbol.rename π))) depth g =
        ((gr.iterate start depth g).map (Prod.map (List.map (Symbol.rename π)) id)).mapError
          (DeriveError.rename π)) ∧
    (∀ {σ : Type} [Draws σ] (gr : Grammar) (w : Word) (depth : Nat) (g : σ),
      (gr.rename π).course (w.map (Symbol.rename π)) depth g =
        Grammar.renamed π (gr.course w depth g)) ∧
    (∀ {α : Type} [Scalar α] (setup : Setup α) (table : Table) (depth : Int) (w : List (Symbol α)),
      Turtle.interpret setup (table.rename π) depth (w.map (Symbol.rename π)) =
        (Turtle.interpret setup table depth w).map (Drawing.rename π)) ∧
    ∀ {α : Type} [Scalar α] (setup : Setup α) (table : Table) (w : List (Symbol α)) (t : Turtle α),
      (t.rename π).run setup (table.rename π) (w.map (Symbol.rename π)) =
        Prod.map (Turtle.rename π) id (t.run setup table w) :=
  ⟨fun gr => gr.insertAll_rename hπ, fun gr => gr.iterate_rename hπ, fun gr => gr.course_rename hπ,
    Turtle.interpret_rename hπ, Turtle.run_rename hπ⟩

open scoped Grid in
/-- Two names change places, an apex and the beginning of a branch, so that now a bracket grows and
a letter is the context of a lot. The second step fails after its draw, at the same position as
before. The patch of the new apex has a bracket for its name, and the second end of the branch is a
mistake as before. -/
theorem no_name_reserved_bracket :
    let swap (name : String) : String :=
      if name = "A" then "[" else if name = "[" then "A" else name
    let grow : Rule :=
      { predecessor := "A", params := ["x"]
        successor := [⟨"[", [], false⟩, ⟨"F", [.bin .div (.num 4.0) (.var "x")], false⟩,
          ⟨"]", [], false⟩, ⟨"A", [.bin .sub (.var "x") (.num 1.0)], true⟩] }
    let bend : Rule :=
      { predecessor := "F", params := ["x"], left := some "[", weight := some 1.0
        successor := [⟨"F", [.var "x"], false⟩, ⟨"+", [], false⟩] }
    let drop : Rule := { predecessor := "F", params := ["x"], left := some "[", weight := some 3.0 }
    let bare : Grammar := { start := [⟨"A", [1.0], false⟩] }
    let gr := (bare.rename swap).insertAll ([grow, bend, drop].map (Rule.rename swap))
    let after (n : Nat) : Counted Replay := { source := ⟨#[0.125], n⟩, count := n }
    let stuck : StepError := .noValue ⟨"[", [0.0], true⟩ 3 (.divisionByZero 4.0)
    let shoot : Word :=
      [⟨"A", [], false⟩, ⟨"F", [4.0], false⟩, ⟨"]", [], false⟩, ⟨"[", [0.0], true⟩]
    let branch : List (Symbol Int) :=
      [⟨"A", [], false⟩, ⟨"F", [], false⟩, ⟨"]", [], false⟩, ⟨"]", [], false⟩, ⟨"[", [2], true⟩]
    gr.iterate none 1 (after 0) = .ok (shoot, after 0) ∧
      gr.course gr.start 2 (after 0) = (.error stuck, after 1) ∧
      ∃ d, Turtle.interpret Grid.setup (Table.standard.rename swap) 0 branch = .ok d ∧
        d.lines.size = 1 ∧ d.patches.map (fun p => (p.name, p.scale)) = #[("[", 2)] ∧
        d.mistakes = #[⟨.popEmpty, 3, some ⟨"]", [], false⟩⟩] := by
  intro swap grow bend drop bare gr after stuck shoot branch
  -- to swap two names twice gives them back
  have hswap : Function.Injective swap := by
    have hinvolutive : Function.Involutive swap := fun name => by
      simp only [swap]
      split <;> split <;> simp_all
    exact hinvolutive.injective
  obtain ⟨hinsert, hiterate, hcourse, hinterpret, -⟩ := no_name_reserved hswap
  have hgr : gr = (bare.insertAll [grow, bend, drop]).rename swap := hinsert bare _
  have hone : (bare.insertAll [grow, bend, drop]).iterate none 1 (after 0) =
      .ok ([⟨"[", [], false⟩, ⟨"F", [4.0], false⟩, ⟨"]", [], false⟩, ⟨"A", [0.0], true⟩],
        after 0) := by
    decide +kernel
  have htwo : (bare.insertAll [grow, bend, drop]).course bare.start 2 (after 0) =
      (.error (.noValue ⟨"A", [0.0], true⟩ 3 (.divisionByZero 4.0)), after 1) := by
    decide +kernel
  -- both runs of the renamed grammar are those of the grammar itself, renamed
  refine ⟨?_, ?_, ?_⟩
  · rw [hgr]
    exact (hiterate _ none 1 (after 0)).trans (by rw [hone]; rfl)
  · rw [hgr]
    exact (hcourse _ bare.start 2 (after 0)).trans (by rw [htwo]; rfl)
  · have hdrawn := hinterpret Grid.setup Table.standard 0
      [⟨"[", [], false⟩, ⟨"F", [], false⟩, ⟨"]", [], false⟩, ⟨"]", [], false⟩, ⟨"A", [2], true⟩]
    exact ⟨_, hdrawn, rfl, by decide +kernel, by decide +kernel⟩

end Arbor
