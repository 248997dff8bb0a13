import Arbor.Proofs.Derivation.Counterpart
import Arbor.Proofs.Derivation.Homomorphism
import Mathlib.Data.List.Basic

/-!
# The shape of a derivation

The shape of a word is what remains of it when the numbers are forgotten: the names, the marks and
how many parameters each symbol has. Numbers can have an influence on the shape of what is derived,
but only through conditions. In a grammar without conditions two words of one shape are derived to
words of one shape, to any depth and with the same draws, as long as both can be derived
(`Grammar.iterate_of_sameShape`). Whether they can may still depend on the numbers, since an
argument may have no value.

The numbers of a symbol are read in two places. The choice of a rule asks each rule whether it
accepts the symbol; without a condition this is settled by the number of parameters, so two symbols
of one shape get the same rule (`select_of_sameShape`). The successor of the rule is then made with
the numbers put in, but its shape is that of the templates (`Rule.shape_of_expand`), which have no
number in them.
-/

namespace Arbor

open Outcome

/-! ### Shapes -/

/-- **Shape** of a symbol: the symbol with every parameter forgotten. -/
def Symbol.shape (s : Symbol Float) : Symbol Unit := s.map fun _ => ()

/-- **Shape** of a word. -/
def Word.shape (w : Word) : List (Symbol Unit) := w.map Symbol.shape

/-- The shape of the symbols that a template stands for. -/
def Template.shape (t : Template) : Symbol Unit := ⟨t.name, t.args.map fun _ => (), t.patch⟩

/-- Two symbols have one shape if they have the same name, the same mark and as many parameters. -/
theorem Symbol.shape_eq_iff {s t : Symbol Float} :
    s.shape = t.shape ↔ s.name = t.name ∧ s.patch = t.patch ∧ s.arity = t.arity := by
  -- rows of nothing are equal if they are as long
  have hparams : s.params.map (fun _ => ()) = t.params.map (fun _ => ()) ↔
      s.params.length = t.params.length := by
    rw [List.map_const', List.map_const', List.replicate_left_inj]
  rw [Symbol.shape, Symbol.shape, Symbol.map, Symbol.map, Symbol.mk.injEq, hparams, Symbol.arity,
    Symbol.arity]
  exact and_congr_right fun _ => and_comm

/-- Two words have one shape if they are as long and have symbols of one shape at each place. -/
theorem Word.shape_eq_iff {u v : Word} :
    u.shape = v.shape ↔ u.length = v.length ∧
      ∀ (i : Nat) (s t : Symbol Float), u[i]? = some s → v[i]? = some t → s.shape = t.shape := by
  constructor
  · intro h
    refine ⟨by simpa [Word.shape] using congrArg List.length h, fun i s t hs ht => ?_⟩
    -- the shapes have the same symbol at each place, as they are equal
    have hi : u.shape[i]? = v.shape[i]? := by rw [h]
    simpa [Word.shape, hs, ht] using hi
  · rintro ⟨hlength, hsame⟩
    -- conversely two rows of shapes are equal if they agree at each place
    refine List.ext_getElem (by simpa [Word.shape] using hlength) fun i hu hv => ?_
    rw [Word.shape, List.length_map] at hu hv
    simpa [Word.shape] using
      hsame i u[i] v[i] (List.getElem?_eq_getElem hu) (List.getElem?_eq_getElem hv)

@[simp] theorem Word.shape_append (u v : Word) : Word.shape (u ++ v) = u.shape ++ v.shape :=
  List.map_append

/-- Words of one shape begin with the same name. -/
theorem Word.head?_name_of_shape {u v : Word} (h : u.shape = v.shape) :
    u.head?.map Symbol.name = v.head?.map Symbol.name := by
  -- the name is still there in the shape
  have hname (w : Word) : w.head?.map Symbol.name = w.shape.head?.map Symbol.name := by
    rw [Word.shape, List.head?_map, Option.map_map]
    rfl
  rw [hname u, hname v, h]

/-- **Conditions.** A grammar has none if no rule does. -/
def Grammar.Unconditional (gr : Grammar) : Prop := ∀ r ∈ gr.rules, r.condition = none

/-! ### The choice of a rule -/

section Choice

variable {σ : Type} [Draws σ] {s t : Symbol Float} {rules : List Rule}

/-- Without a condition a rule accepts the symbols with as many parameters as it names. -/
theorem Rule.accepts_of_unconditional {r : Rule} (h : r.condition = none) (s : Symbol Float) :
    r.accepts s = .ok (r.params.length = s.arity) := by
  rw [accepts, matchesArity, holds, h]
  by_cases harity : r.params.length = s.arity <;> simp [harity]

/-- **For symbols of one shape** the same rule is chosen, with the same draws. -/
theorem select_of_sameShape (h : ∀ r ∈ rules, r.condition = none) (hst : s.shape = t.shape)
    (ctx : Neighbours) (g : σ) : select t rules ctx g = select s rules ctx g := by
  have harity : s.arity = t.arity := (Symbol.shape_eq_iff.1 hst).2.2
  refine select_congr (fun r hr => ?_) ctx g
  rw [r.accepts_of_unconditional (h r hr), r.accepts_of_unconditional (h r hr), harity]

end Choice

/-! ### What a rule makes -/

/-- A symbol has the shape of the template that it was made of. -/
theorem Template.shape_of_instantiate {env : Env} {t : Template} {s : Symbol Float}
    (h : t.instantiate env = .ok s) : s.shape = t.shape := by
  obtain ⟨args, hargs, h⟩ := bind_eq_ok_iff.1 h
  obtain rfl := Except.ok.inj h
  -- there is one value for each argument
  have hlength : args.map (fun _ => ()) = t.args.map fun _ => () :=
    map_eq_of_mapM (fun _ _ _ => rfl) hargs
  rw [Symbol.shape, Symbol.map, hlength]
  rfl

/-- The shape of a successor is that of its templates, whatever the numbers are. -/
theorem Rule.shape_of_expand {r : Rule} {s : Symbol Float} {out : Word}
    (h : r.expand s = .ok out) : out.shape = r.successor.map Template.shape :=
  map_eq_of_mapM (fun _ _ => Template.shape_of_instantiate) h

namespace Grammar

variable {σ : Type} [Draws σ] {gr : Grammar} {u v a b : Word} {g ga gb : σ}

/-- The shape of what takes the place of a symbol. -/
theorem shape_of_replacement {s : Symbol Float} {chosen : Selection} {out : Word}
    (h : replacement s chosen = .ok out) :
    out.shape = match chosen.rule? with
      | none => [s.shape]
      | some r => r.successor.map Template.shape := by
  unfold replacement at h
  cases hr : chosen.rule? with
  -- without a rule the symbol is kept, with its shape
  | none =>
    rw [hr] at h
    obtain rfl := Except.ok.inj h
    rfl
  | some r =>
    rw [hr] at h
    simp only [Rule.produce] at h
    split at h
    · -- the rule is applied, and what it makes has the shape of its templates
      exact Rule.shape_of_expand (mapError_eq_ok_iff.1 h)
    · cases h

/-! ### Derivations side by side -/

/-- What takes the places of two symbols of one shape has one shape. -/
theorem replace_of_sameShape (h : gr.Unconditional) {s t : Symbol Float} (hst : s.shape = t.shape)
    {ctx : Neighbours} {i : Nat} (ha : gr.replace ctx i s g = .ok (a, ga))
    (hb : gr.replace ctx i t g = .ok (b, gb)) : a.shape = b.shape ∧ ga = gb := by
  have hrules : ∀ r ∈ gr.rulesFor s.name, r.condition = none := fun r hr =>
    h r (mem_rules_of_mem_rulesFor hr)
  have hname : s.name = t.name := (Symbol.shape_eq_iff.1 hst).1
  -- both symbols have the same rules, and the second one may be replaced by the first in the choice
  rw [replace, ← hname, select_of_sameShape hrules hst] at hb
  obtain ⟨⟨chosen, g'⟩, hchosen, ha⟩ := bind_eq_ok_iff.1 ha
  obtain ⟨⟨chosen', g''⟩, hchosen', hb⟩ := bind_eq_ok_iff.1 hb
  rw [mapError_eq_ok_iff] at hchosen hchosen'
  -- one rule is chosen for both, and the draws for it are the same
  obtain ⟨rfl, rfl⟩ := Prod.mk.inj (Except.ok.inj (hchosen.symm.trans hchosen'))
  obtain ⟨out, hout, ha⟩ := bind_eq_ok_iff.1 ha
  obtain ⟨out', hout', hb⟩ := bind_eq_ok_iff.1 hb
  obtain ⟨rfl, rfl⟩ := Prod.mk.inj (Except.ok.inj ha)
  obtain ⟨rfl, rfl⟩ := Prod.mk.inj (Except.ok.inj hb)
  rw [shape_of_replacement (mapError_eq_ok_iff.1 hout),
    shape_of_replacement (mapError_eq_ok_iff.1 hout'), hst]
  exact ⟨rfl, rfl⟩

/-- The rest of a word goes on as that of another word of its shape. -/
theorem stepFrom_of_sameShape (h : gr.Unconditional) (huv : u.shape = v.shape)
    {left : Option String} {i : Nat} (ha : gr.stepFrom left i u g = .ok (a, ga))
    (hb : gr.stepFrom left i v g = .ok (b, gb)) : a.shape = b.shape ∧ ga = gb := by
  induction u generalizing v left i g a b with
  | nil =>
    -- a word of the shape of none has no symbol
    obtain rfl : v = [] := List.map_eq_nil_iff.1 huv.symm
    obtain ⟨rfl, rfl⟩ := Prod.mk.inj (Except.ok.inj (ha.symm.trans hb))
    exact ⟨rfl, rfl⟩
  | cons s u ih =>
    -- a word of the shape of the first begins with a symbol of its shape
    obtain ⟨t, v, rfl, hst, huv⟩ := List.map_eq_cons_iff.1 huv.symm
    obtain ⟨⟨here, g₁⟩, hhere, ha⟩ := bind_eq_ok_iff.1 ha
    obtain ⟨⟨others, g₂⟩, hothers, ha⟩ := bind_eq_ok_iff.1 ha
    obtain ⟨rfl, rfl⟩ := Prod.mk.inj (Except.ok.inj ha)
    obtain ⟨⟨here', g₁'⟩, hhere', hb⟩ := bind_eq_ok_iff.1 hb
    obtain ⟨⟨others', g₂'⟩, hothers', hb⟩ := bind_eq_ok_iff.1 hb
    obtain ⟨rfl, rfl⟩ := Prod.mk.inj (Except.ok.inj hb)
    -- both symbols stand between the same names, and the rests follow on the same name
    rw [Word.head?_name_of_shape huv] at hhere'
    rw [(Symbol.shape_eq_iff.1 hst).1] at hothers'
    obtain ⟨hshape, rfl⟩ := replace_of_sameShape h hst.symm hhere hhere'
    obtain ⟨hrest, rfl⟩ := ih huv.symm hothers hothers'
    rw [Word.shape_append, Word.shape_append, hshape, hrest]
    exact ⟨rfl, rfl⟩

/-- **A step** from words of one shape leads to words of one shape. -/
theorem step_of_sameShape (h : gr.Unconditional) (huv : u.shape = v.shape)
    (ha : gr.step u g = .ok (a, ga)) (hb : gr.step v g = .ok (b, gb)) :
    a.shape = b.shape ∧ ga = gb := stepFrom_of_sameShape h huv ha hb

/-- **A derivation** from words of one shape leads to words of one shape. -/
theorem derive_of_sameShape (h : gr.Unconditional) (huv : u.shape = v.shape) {depth : Nat}
    (ha : gr.derive u depth g = .ok (a, ga)) (hb : gr.derive v depth g = .ok (b, gb)) :
    a.shape = b.shape ∧ ga = gb := by
  -- the words and the source are general, since the first step leads to others
  induction depth generalizing u v g with
  | zero =>
    obtain ⟨rfl, rfl⟩ := Prod.mk.inj (Except.ok.inj ha)
    obtain ⟨rfl, rfl⟩ := Prod.mk.inj (Except.ok.inj hb)
    exact ⟨huv, rfl⟩
  | succ depth ih =>
    obtain ⟨⟨u', gu⟩, hu, ha⟩ := bind_eq_ok_iff.1 ha
    obtain ⟨⟨v', gv⟩, hv, hb⟩ := bind_eq_ok_iff.1 hb
    obtain ⟨hshape, rfl⟩ := step_of_sameShape h huv hu hv
    exact ih hshape ha hb

/-- **Numbers shape a derivation through conditions only.** In a grammar without conditions, words
of one shape that can both be derived to a depth are derived to words of one shape, which are as
long and have at each place the same name, the same mark and as many parameters. Both derivations
leave the source at the same place, so a source that counts its draws has counted as many. -/
theorem iterate_of_sameShape (h : gr.Unconditional) (huv : u.shape = v.shape) {depth : Int}
    (ha : gr.iterate (some u) depth g = .ok (a, ga))
    (hb : gr.iterate (some v) depth g = .ok (b, gb)) :
    (a.length = b.length ∧ ∀ (i : Nat) (s t : Symbol Float), a[i]? = some s → b[i]? = some t →
      s.name = t.name ∧ s.patch = t.patch ∧ s.arity = t.arity) ∧ ga = gb := by
  have hderived : a.shape = b.shape ∧ ga = gb := by
    unfold iterate at ha hb
    split at ha
    · -- no derivation to a negative depth succeeds
      cases ha
    · next hdepth =>
      rw [if_neg hdepth] at hb
      exact derive_of_sameShape h huv (mapError_eq_ok_iff.1 ha) (mapError_eq_ok_iff.1 hb)
  obtain ⟨hlength, hsame⟩ := Word.shape_eq_iff.1 hderived.1
  -- the shape of a word holds the three things for each of its symbols
  exact ⟨⟨hlength, fun i s t hs ht => Symbol.shape_eq_iff.1 (hsame i s t hs ht)⟩, hderived.2⟩

/-- A bud that is drawn for by lot, behind a stem that thickens as long as a bud follows. The
numbers of the two words differ, and so do those of what they are derived to, but two draws are made
for each. -/
theorem iterate_of_sameShape_bud :
    let grow : Rule :=
      { predecessor := "A", params := ["x"], weight := some 3.0
        successor := [⟨"A", [.bin .div (.var "x") (.num 2.0)], false⟩, ⟨"L", [.var "x"], true⟩] }
    let die : Rule := { predecessor := "A", params := ["x"], weight := some 1.0 }
    let thicken : Rule :=
      { predecessor := "S", params := ["x"], right := some "A"
        successor := [⟨"S", [.bin .mul (.var "x") (.num 2.0)], false⟩] }
    let gr : Grammar := { groups := [("A", [grow, die]), ("S", [thicken])] }
    let c : Counted Replay := { source := ⟨#[0.5, 0.25], 0⟩ }
    let c' : Counted Replay := { source := ⟨#[0.5, 0.25], 2⟩, count := 2 }
    let u : Word := [⟨"S", [1.0], false⟩, ⟨"A", [8.0], false⟩]
    let v : Word := [⟨"S", [0.0], false⟩, ⟨"A", [-4.0], false⟩]
    let a : Word :=
      [⟨"S", [4.0], false⟩, ⟨"A", [2.0], false⟩, ⟨"L", [4.0], true⟩, ⟨"L", [8.0], true⟩]
    let b : Word :=
      [⟨"S", [0.0], false⟩, ⟨"A", [-1.0], false⟩, ⟨"L", [-2.0], true⟩, ⟨"L", [-4.0], true⟩]
    gr.Unconditional ∧ u.shape = v.shape ∧ gr.iterate (some u) 2 c = .ok (a, c') ∧
      gr.iterate (some v) 2 c = .ok (b, c') ∧ a.length = b.length ∧
      ∀ (i : Nat) (s t : Symbol Float), a[i]? = some s → b[i]? = some t →
        s.name = t.name ∧ s.patch = t.patch ∧ s.arity = t.arity := by
  intro grow die thicken gr c c' u v a b
  have hgr : gr.Unconditional := by
    have hrules : ∀ r ∈ [grow, die, thicken], r.condition = none := by decide +kernel
    exact hrules
  have huv : u.shape = v.shape := rfl
  have ha : gr.iterate (some u) 2 c = .ok (a, c') := by decide +kernel
  have hb : gr.iterate (some v) 2 c = .ok (b, c') := by decide +kernel
  exact ⟨hgr, huv, ha, hb, (iterate_of_sameShape hgr huv ha hb).1⟩

end Grammar

end Arbor
