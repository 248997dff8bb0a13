import Arbor.Proofs.Derivation.Counterpart
import Arbor.Proofs.Derivation.Depth
import Arbor.Proofs.Grammar.Groups
import Arbor.Proofs.Outcome
import Arbor.Proofs.Reach

/-!
# Derivations under other names

Names are there to tell symbols apart, and a derivation does nothing else with them. If all names
are exchanged, in the rules and in the word, and different names stay different, then the derivation
is the same under the new names: the same steps with the same draws, or the same failure at the same
position (`Grammar.iterate_rename`, and `Grammar.course_rename` with the source that a failure
leaves).

Names are compared in two places. The rules of a symbol are looked up under its name
(`Grammar.rulesFor_rename`), and a context is compared with the names of the neighbours
(`Rule.fits_rename`); neither can tell new names from old ones, as a comparison of new names has the
outcome that it had for the old ones. So a rule under its new name is a counterpart of the rule
(`Rule.counterpart_rename`), and the choice between such rules is known. What a rule makes of the
parameters has nothing to do with names (`Rule.produce_rename`).
-/

namespace Arbor

open Outcome

/-! ### Renaming -/

section Rename

variable {α : Type} (π : String → String)

/-- The symbol under its new name. -/
def Symbol.rename (s : Symbol α) : Symbol α := { s with name := π s.name }

/-- The template for a symbol under its new name. -/
def Template.rename (t : Template) : Template := { t with name := π t.name }

/-- The rule with new names for predecessor, context and successor. Its text stays, since a derivation
never reads it. -/
def Rule.rename (r : Rule) : Rule :=
  { r with
    predecessor := π r.predecessor
    left := r.left.map π
    right := r.right.map π
    successor := r.successor.map (Template.rename π) }

/-- The neighbours under their new names. -/
def Neighbours.rename (ctx : Neighbours) : Neighbours :=
  { left := ctx.left.map π, right := ctx.right.map π }

/-- The grammar with its start word and its rules under their new names, in the order in which they
were. -/
def Grammar.rename (gr : Grammar) : Grammar where
  start := gr.start.map (Symbol.rename π)
  groups := gr.groups.map (Prod.map π (List.map (Rule.rename π)))

/-- The failure to produce a successor, for the rule and the symbol under their new names. -/
def Rule.ProduceError.rename : Rule.ProduceError → Rule.ProduceError
  | .arity cause => .arity ⟨cause.rule.rename π, cause.symbol.rename π⟩
  | .eval cause => .eval cause

/-- The failure of a step, at the same position, for the symbol under its new name. -/
def StepError.rename : StepError → StepError
  | noValue s position cause => noValue (s.rename π) position cause
  | arity cause => arity ⟨cause.rule.rename π, cause.symbol.rename π⟩

/-- The failure of a derivation, for the symbol under its new name. -/
def DeriveError.rename : DeriveError → DeriveError
  | negativeDepth depth => negativeDepth depth
  | step cause => step (cause.rename π)

/-- What a step comes to, under the new names, with the source that it leaves. -/
def Grammar.renamed {σ : Type} (x : Except StepError Word × σ) : Except StepError Word × σ :=
  ((x.1.map (List.map (Symbol.rename π))).mapError (StepError.rename π), x.2)

end Rename

/-! ### Rules -/

section Rules

variable {π : String → String} {r : Rule} {s : Symbol Float}

/-- Acceptance asks for parameters only. -/
theorem Rule.accepts_rename : (r.rename π).accepts (s.rename π) = r.accepts s := rfl

/-- A rule asks for as much of the neighbours under its new name. -/
theorem Rule.contextKind_rename : (r.rename π).contextKind = r.contextKind := by
  unfold contextKind rename
  cases r.left <;> cases r.right <;> rfl

/-- A context fits under the new names if it does so under the old ones. -/
theorem Rule.fits_rename (hπ : Function.Injective π) (ctx : Neighbours) :
    (r.rename π).fits (ctx.rename π) = r.fits ctx := by
  have hsame (a b : Option String) : a.map π = b.map π ↔ a = b := (Option.map_injective hπ).eq_iff
  simp only [fits, rename, Neighbours.rename, Option.isNone_map, hsame]

/-- **A rule under its new name** is a counterpart of the rule. -/
theorem Rule.counterpart_rename (hπ : Function.Injective π) (ctx : Neighbours) :
    r.Counterpart s (s.rename π) ctx (ctx.rename π) (r.rename π) :=
  ⟨accepts_rename, rfl, fits_rename hπ ctx, contextKind_rename⟩

/-- A template is filled in under the new name as under the old one; its arguments have no names of
symbols. -/
theorem Template.instantiate_rename (env : Env) (t : Template) :
    (t.rename π).instantiate env = (t.instantiate env).map (Symbol.rename π) := by
  unfold instantiate rename
  cases t.args.mapM (Expr.eval env) <;> rfl

/-- A successor is filled in as its templates are. -/
theorem Rule.expand_rename :
    (r.rename π).expand (s.rename π) = (r.expand s).map (List.map (Symbol.rename π)) :=
  mapM_map (Template.instantiate_rename (r.env s)) r.successor

/-- **A successor** under the new names. -/
theorem Rule.produce_rename :
    (r.rename π).produce (s.rename π) =
      ((r.produce s).map (List.map (Symbol.rename π))).mapError (ProduceError.rename π) := by
  have harity : (r.rename π).matchesArity (s.rename π) = r.matchesArity s := rfl
  unfold produce
  rw [harity, expand_rename]
  split
  · -- the arities agree, and the successor is put together or fails alike
    cases r.expand s <;> rfl
  · rfl

end Rules

/-! ### Grammars -/

namespace Grammar

variable {π : String → String} (hπ : Function.Injective π) (gr : Grammar)
include hπ

/-- The rules of a name are found under the new name. -/
theorem rulesFor_rename (name : String) :
    (gr.rename π).rulesFor (π name) = (gr.rulesFor name).map (Rule.rename π) := by
  rw [rulesFor, rename, lookup_map hπ, rulesFor]
  cases gr.groups.lookup name <;> rfl

/-- A rule is inserted into the group of its new name. -/
theorem insertInto_rename (r : Rule) (groups : List (String × List Rule)) :
    insertInto (r.rename π) (groups.map (Prod.map π (List.map (Rule.rename π)))) =
      (insertInto r groups).map (Prod.map π (List.map (Rule.rename π))) := by
  induction groups with
  | nil => rfl
  | cons group groups ih =>
    obtain ⟨name, rules⟩ := group
    have hname : π name = (r.rename π).predecessor ↔ name = r.predecessor := hπ.eq_iff
    simp only [List.map_cons, Prod.map_apply, insertInto, ih, hname]
    -- the group of the new name is the one that was the group of the old name
    split
    · rw [List.map_cons, Prod.map_apply, List.map_append]
      rfl
    · rfl

/-- **A grammar built from renamed rules**, one after the other, is the grammar built from the
rules, under the new names. -/
theorem insertAll_rename (rules : List Rule) :
    (gr.rename π).insertAll (rules.map (Rule.rename π)) = (gr.insertAll rules).rename π := by
  induction rules generalizing gr with
  | nil => rfl
  | cons r rules ih =>
    -- each single insertion may be made before or after the renaming
    have hinsert : (gr.rename π).insert (r.rename π) = (gr.insert r).rename π := by
      unfold insert rename
      rw [insertInto_rename hπ]
    rw [List.map_cons, insertAll_cons, insertAll_cons, hinsert, ih]

/-! ### Derivations -/

variable {σ : Type} [Draws σ]

omit hπ in
/-- What takes the place of a symbol, under the new names. -/
theorem replacement_rename (s : Symbol Float) (chosen : Selection) :
    replacement (s.rename π) (chosen.map (Rule.rename π)) =
      ((replacement s chosen).map (List.map (Symbol.rename π))).mapError
        (Rule.ProduceError.rename π) := by
  unfold replacement
  rw [Selection.rule?_map]
  cases chosen.rule? with
  | none => rfl
  | some r => exact Rule.produce_rename

/-- A symbol is replaced, under the new names, by what replaces it, and the same source is left. -/
theorem attemptSymbol_rename (ctx : Neighbours) (position : Nat) (s : Symbol Float) (g : σ) :
    (gr.rename π).attemptSymbol (ctx.rename π) position (s.rename π) g =
      renamed π (gr.attemptSymbol ctx position s g) := by
  have hrules : (gr.rename π).rulesFor (s.rename π).name =
      (gr.rulesFor s.name).map (Rule.rename π) := gr.rulesFor_rename hπ s.name
  -- the rules under their new names are counterparts of the rules, so the choice is the same
  rw [attemptSymbol_eq, attemptSymbol_eq, hrules, select_map (fun r _ => r.counterpart_rename hπ ctx) g]
  cases select s (gr.rulesFor s.name) ctx g with
  | error e => rfl
  | ok found =>
    obtain ⟨chosen, g'⟩ := found
    -- what was chosen makes the same of the parameters, or fails for the same reason
    simp only [Except.map, Prod.map_apply, id_eq, replacement_rename]
    cases replacement s chosen with
    | ok out => rfl
    | error e => cases e <;> rfl

/-- A step over the rest of a word, under the new names. -/
theorem attemptFrom_rename (left : Option String) (position : Nat) (w : Word) (g : σ) :
    (gr.rename π).attemptFrom (left.map π) position (w.map (Symbol.rename π)) g =
      renamed π (gr.attemptFrom left position w g) := by
  induction w generalizing left position g with
  | nil => rfl
  | cons s w ih =>
    -- the neighbours of the first symbol are those of before, under their new names
    have hright : (w.map (Symbol.rename π)).head?.map Symbol.name =
        (w.head?.map Symbol.name).map π := by
      cases w <;> rfl
    have hsymbol : (gr.rename π).attemptSymbol
          ⟨left.map π, (w.head?.map Symbol.name).map π⟩ position (s.rename π) g =
        renamed π (gr.attemptSymbol ⟨left, w.head?.map Symbol.name⟩ position s g) :=
      gr.attemptSymbol_rename hπ ⟨left, w.head?.map Symbol.name⟩ position s g
    have hrest (g : σ) : (gr.rename π).attemptFrom (some (s.rename π).name) (position + 1)
          (w.map (Symbol.rename π)) g =
        renamed π (gr.attemptFrom (some s.name) (position + 1) w g) :=
      ih (some s.name) (position + 1) g
    simp only [List.map_cons, attemptFrom, hright, hsymbol]
    obtain ⟨here, g₁⟩ := gr.attemptSymbol ⟨left, w.head?.map Symbol.name⟩ position s g
    cases here with
    -- the failure names the symbol at its position, under its new name
    | error e => rfl
    | ok out =>
      simp only [renamed, Except.map, mapError_ok] at hrest ⊢
      rw [hrest]
      obtain ⟨others, g₂⟩ := gr.attemptFrom (some s.name) (position + 1) w g₁
      cases others with
      | error e => rfl
      | ok outs => simp only [mapError_ok, List.map_append]

/-- **One step** under the new names. -/
theorem attempt_rename (w : Word) (g : σ) :
    (gr.rename π).attempt (w.map (Symbol.rename π)) g = renamed π (gr.attempt w g) :=
  gr.attemptFrom_rename hπ none 0 w g

/-- **The course of a derivation** under the new names. -/
theorem course_rename (w : Word) (depth : Nat) (g : σ) :
    (gr.rename π).course (w.map (Symbol.rename π)) depth g = renamed π (gr.course w depth g) := by
  -- renaming may be done before or after a step more, and so before or after any number of them
  have honward : Function.Semiconj (renamed π : Except StepError Word × σ → _) gr.onward
      (gr.rename π).onward := by
    rintro ⟨outcome, g⟩
    cases outcome with
    | error e => rfl
    | ok w => exact (gr.attempt_rename hπ w g).symm
  exact (honward.iterate_right depth (.ok w, g)).symm

/-- **A derivation** under the new names. -/
theorem iterate_rename (start : Option Word) (depth : Int) (g : σ) :
    (gr.rename π).iterate (start.map (List.map (Symbol.rename π))) depth g =
      ((gr.iterate start depth g).map (Prod.map (List.map (Symbol.rename π)) id)).mapError
        (DeriveError.rename π) := by
  have hstart : (start.map (List.map (Symbol.rename π))).getD (gr.rename π).start =
      (start.getD gr.start).map (Symbol.rename π) := by
    cases start <;> rfl
  unfold iterate
  split
  · -- a negative depth is refused before any name is looked at
    rfl
  · rw [hstart, derive_eq_course, derive_eq_course, gr.course_rename hπ]
    obtain ⟨outcome, g'⟩ := gr.course (start.getD gr.start) depth.toNat g
    cases outcome <;> rfl

end Grammar

end Arbor
