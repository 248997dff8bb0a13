import Arbor.Proofs.Expr.Printing
import Arbor.Proofs.Rule.Reading
import Mathlib.Data.List.Forall2

/-!
# Templates printed and read again

The text of a template is read as a template of the same name and mark, whose arguments are what the
printed arguments stand for (`lexes_template`). A row of templates without anything between them is
read as such a row (`lexes_templates`).

Two kinds of things are printed as a list with commas, the arguments of a template and the names of
parameters. For both a list is read as items if each of its members is, before a comma and before the
closing parenthesis (`Rule.lexes_parenthesized`).
-/

namespace Arbor

open Token (skipGaps next? Apart)

namespace Rule

/-! ### Printed lists -/

section Lists

variable {α β : Type}

/-- What follows an item of a list: a comma or the parenthesis. -/
def ItemEnds (rest : List Char) : Prop := ∃ c cs, rest = c :: cs ∧ (c = ',' ∨ c = ')')

/-- After an item of a list no text runs on. -/
theorem ItemEnds.apart {rest : List Char} (h : ItemEnds rest) : Apart rest := by
  obtain ⟨c, cs, rfl, rfl | rfl⟩ := h <;> exact Token.apart_cons (by decide)

/-- **Printed items.** In a list the text of `a` is read as an item that corresponds to `a`. -/
def PrintsAs (Item : List Terminal → β → Prop) (R : β → α → Prop) (print : α → String) (a : α) : Prop :=
  ∀ rest, ItemEnds rest →
    ∃ ts b, Item ts b ∧ Lexes ((print a).toList ++ rest) ts rest ∧ R b a

variable {Item : List Terminal → β → Prop} {R : β → α → Prop} {print : α → String}

/-- A list is read back item by item. -/
theorem lexes_listed (a : α) (as : List α) (h : ∀ x ∈ a :: as, PrintsAs Item R print x)
    (rest : List Char) :
    ∃ ts bs, Listed Item ts bs ∧
      Lexes ((",".intercalate ((a :: as).map print)).toList ++ ')' :: rest) ts (')' :: rest) ∧
      List.Forall₂ R bs (a :: as) := by
  induction as generalizing a with
  | nil =>
    obtain ⟨ts, b, hitem, hlexes, hb⟩ := h a List.mem_cons_self _ ⟨')', rest, rfl, .inr rfl⟩
    rw [List.map_singleton, String.intercalate_singleton]
    exact ⟨ts, [b], .one hitem, hlexes, .cons hb .nil⟩
  | cons a' as ih =>
    obtain ⟨us, bs, hlisted, hmore, hbs⟩ := ih a' fun x hx => h x (List.mem_cons_of_mem a hx)
    rw [List.map_cons, List.map_cons, String.intercalate_cons_cons, ← List.map_cons,
      String.toList_append, String.toList_append, List.append_assoc, List.append_assoc]
    obtain ⟨ts, b, hitem, hlexes, hb⟩ := h a List.mem_cons_self _ ⟨',', _, rfl, .inl rfl⟩
    -- the comma is a terminal by itself, whatever follows it
    have hcomma : ∀ cs, next? (',' :: cs) = some (.comma, cs) := fun cs =>
      Token.Lexeme.comma.next? trivial
    exact ⟨_, b :: bs, .more hitem hlisted, hlexes.append (.cons (hcomma _) hmore), .cons hb hbs⟩

/-- **A printed list** is read as a list, and an empty one is left out. -/
theorem lexes_parenthesized (as : List α) (h : ∀ a ∈ as, PrintsAs Item R print a) (rest : List Char) :
    ∃ ts bs, Parenthesized Item ts bs ∧
      Lexes ((if as = [] then "" else "(" ++ ",".intercalate (as.map print) ++ ")").toList ++ rest) ts
        rest ∧ List.Forall₂ R bs as := by
  cases as with
  | nil => exact ⟨[], [], .absent, .nil rest, .nil⟩
  | cons a as =>
    obtain ⟨ts, bs, hlisted, hlexes, hbs⟩ := lexes_listed a as h rest
    have hopen : ∀ cs, next? ('(' :: cs) = some (.lparen, cs) := fun cs =>
      Token.Lexeme.lparen.next? trivial
    -- a parenthesis is a terminal by itself as well
    have hclose : next? (')' :: rest) = some (.rparen, rest) := Token.Lexeme.rparen.next? trivial
    refine ⟨_, bs, .list hlisted, ?_, hbs⟩
    rw [if_neg (List.cons_ne_nil a as), String.toList_append, String.toList_append,
      List.append_assoc, List.append_assoc]
    exact .cons (hopen _) (hlexes.append (.one hclose))

end Lists

end Rule

open Rule (Phrase Listed Parenthesized Repeated TemplatePart)

/-! ### Printed templates -/

/-- **Proper names** are single characters that can be symbols. -/
def ProperName (name : String) : Prop := ∃ c, isSymbolChar c = true ∧ name = symbolName c

/-- The sign of a symbol is read as that symbol. -/
theorem Terminal.Next.symbol {c : Char} (hc : isSymbolChar c = true) (cs : List Char) :
    (Terminal.symbol c).Next (c :: cs) cs :=
  ⟨Token.skipGaps_cons (not_isGap_of_isSymbolChar hc) cs, hc⟩

/-- A tree that can be printed: it could have been parsed, and its numbers are finite. -/
def Expr.Printable (e : Expr) : Prop := e.Legible ∧ ∀ v ∈ e.literals, v.isFinite = true

/-- Finite numbers may be printed. -/
theorem Expr.printable_num {v : Float} (h : v.isFinite = true) : (Expr.num v).Printable := by
  refine ⟨Numeral.isNaN_eq_false h, fun w hw => ?_⟩
  obtain rfl := List.mem_singleton.1 hw
  exact h

/-- A printed expression is read as an expression. -/
theorem lexes_expr {e : Expr} (h : e.Printable) {rest : List Char} (hrest : Apart rest) :
    ∃ ts f, Phrase ts f ∧ Lexes (e.text.toList ++ rest) ts rest ∧ Expr.Agrees f e.reread := by
  obtain ⟨ts, f, hreads, hderives, hagrees⟩ :=
    (Expr.readsBack_of_legible h.1 h.2 _ hrest).loosen (m := .disjunction) (Nat.zero_le _)
  exact ⟨_, f, .mk hderives, lexes_tokens_iff.2 hreads, hagrees⟩

namespace Template

/-- The template that the text of a template stands for. -/
def reread (t : Template) : Template := { t with args := t.args.map Expr.reread }

/-- A template that can be printed: its name is proper, and its arguments can be printed. -/
structure Printable (t : Template) : Prop where
  name : ProperName t.name
  args : ∀ e ∈ t.args, e.Printable

/-- **Agreement.** The same name and mark, and arguments that agree. -/
structure Agrees (s t : Template) : Prop where
  name : s.name = t.name
  patch : s.patch = t.patch
  args : List.Forall₂ Expr.Agrees s.args t.args

end Template

/-- Lists are equal if their members are. -/
theorem beq_of_forall₂ {α : Type} [BEq α] {R : α → α → Prop} {as bs : List α}
    (h : List.Forall₂ R as bs) (hR : ∀ a, ∀ b ∈ bs, R a b → (a == b) = true) :
    (as == bs) = true := by
  induction h with
  | nil => rfl
  | cons head _ ih =>
    rw [List.cons_beq_cons, hR _ _ List.mem_cons_self head,
      ih fun a b hb => hR a b (List.mem_cons_of_mem _ hb), Bool.and_self]

theorem Template.Agrees.refl (t : Template) : t.Agrees t :=
  ⟨rfl, rfl, List.forall₂_same.2 fun e _ => .refl e⟩

/-- Templates that agree are equal, where the numbers in them are defined. -/
theorem Template.Agrees.beq {t u : Template} (h : t.Agrees u)
    (hu : ∀ e ∈ u.args, ∀ v ∈ e.literals, v.isNaN = false) : (t == u) = true := by
  have hargs : (t.args == u.args) = true :=
    beq_of_forall₂ h.args fun e f hf hagrees => hagrees.beq (hu f hf)
  -- the test of all three fields
  have hbeq : (t == u) = (t.name == u.name && (t.args == u.args && t.patch == u.patch)) := by
    cases t
    cases u
    rfl
  rw [hbeq, hargs, h.name, h.patch, beq_self_eq_true, beq_self_eq_true]
  rfl

/-- **The text of a template** is read as what it stands for. -/
theorem lexes_template {t : Template} (h : t.Printable) (rest : List Char) :
    ∃ ts t', TemplatePart ts t' ∧ Lexes (t.text.toList ++ rest) ts rest ∧ t'.Agrees t.reread := by
  obtain ⟨name, args, patch⟩ := t
  obtain ⟨c, hc, rfl⟩ := h.name
  have hargs : ∀ e ∈ args, Rule.PrintsAs Phrase (fun f e => Expr.Agrees f e.reread) Expr.text e :=
    fun e he rest hrest => lexes_expr (h.args e he) hrest.apart
  obtain ⟨ts, args', hlist, hlexes, hagree⟩ := Rule.lexes_parenthesized args hargs rest
  -- the mark of a patch comes first if there is one
  have hmark : ∀ cs, (Terminal.mark .patch).Next ('~' :: cs) cs := fun cs =>
    Token.skipGaps_cons rfl cs
  have htext : (Template.mk (symbolName c) args patch).text.toList ++ rest =
      (Symbol.mark patch).toList ++ (c :: ((if args = [] then "" else
        "(" ++ ",".intercalate (args.map Expr.text) ++ ")").toList ++ rest)) := by
    simp [Template.text, symbolName]
  rw [htext]
  have hagrees : (Template.mk (symbolName c) args' patch).Agrees
      (Template.mk (symbolName c) args patch).reread :=
    ⟨rfl, rfl, List.forall₂_map_right_iff.2 hagree⟩
  cases patch with
  | false => exact ⟨_, _, .plain c hlist, .cons (.symbol hc _) hlexes, hagrees⟩
  | true => exact ⟨_, _, .patch c hlist, .cons (hmark _) (.cons (.symbol hc _) hlexes), hagrees⟩

/-- **The text of a row of templates** is read as a row of what they stand for. -/
theorem lexes_templates {us : List Template} (h : ∀ t ∈ us, t.Printable) :
    ∃ ts us', Repeated TemplatePart ts us' ∧
      Lexes (String.join (us.map Template.text)).toList ts [] ∧
      List.Forall₂ (fun t' t => t'.Agrees t.reread) us' us := by
  induction us with
  | nil => exact ⟨[], [], .nil, .nil [], .nil⟩
  | cons t us ih =>
    obtain ⟨vs, us', hrow, hmore, hagree⟩ := ih fun u hu => h u (List.mem_cons_of_mem t hu)
    obtain ⟨ts, t', hpart, hlexes, ht⟩ := lexes_template (h t List.mem_cons_self)
      (String.join (us.map Template.text)).toList
    rw [List.map_cons, String.join_cons, String.toList_append]
    exact ⟨_, t' :: us', .cons hpart hrow, hlexes.append hmore, .cons ht hagree⟩

end Arbor
