import Arbor.Grammar.Reader
import Arbor.Proofs.Rule.Templates

/-!
# Words read back

The text of a word is the text of a row of templates whose arguments are the parameters as literals
(`Template.ofSymbol`), and is read as such a row (`lexes_word`). So reading it gives the word back
(`Word.parse_text`), under two conditions. Every name has to be a single character that can be a symbol
(`ProperName`), and every parameter has to be finite, since `inf` is a name and not a number.

The parameters come back as equal numbers, which for zeros need not be the same (`Symbol.Agrees`):
negative zero is written `0`.
-/

namespace Arbor

open Rule (Repeated TemplatePart)

/-! ### Names that can be read -/

/-- Every name of the word is proper. -/
def Word.Proper (w : Word) : Prop := ∀ s ∈ w, ProperName s.name

/-- **Agreement.** The same name and mark, and equal parameters. -/
structure Symbol.Agrees (s t : Symbol Float) : Prop where
  name : s.name = t.name
  patch : s.patch = t.patch
  params : List.Forall₂ (fun x y => (x == y) = true) s.params t.params

/-- The template of a symbol, with its parameters as literals. -/
def Template.ofSymbol (s : Symbol Float) : Template := ⟨s.name, s.params.map .num, s.patch⟩

/-- Literals need no environment. -/
theorem Template.instantiate_ofSymbol (env : Env) (s : Symbol Float) :
    (Template.ofSymbol s).instantiate env = .ok s := by
  have hliteral : ∀ v, Expr.eval env (.num v) = .ok v := fun _ => rfl
  have hargs : (s.params.map Expr.num).mapM (Expr.eval env) = .ok s.params :=
    Outcome.mapM_map_eq_ok hliteral s.params
  rw [instantiate, ofSymbol, hargs]
  rfl

/-! ### Symbols as templates -/

section Templates

variable {s : Symbol Float} {t : Template} {w : Word}

/-- A symbol is printed as the template that stands for it. -/
theorem Symbol.text_eq (s : Symbol Float) : s.text = (Template.ofSymbol s).text := by
  have hargs : (s.params.map Expr.num).map Expr.text = s.params.map Numeral.text := List.map_map
  unfold Symbol.text Template.text Template.ofSymbol
  rw [hargs]
  simp only [List.isEmpty_iff, List.map_eq_nil_iff]

/-- So is a word. -/
theorem Word.text_eq (w : Word) :
    w.text = String.join ((w.map Template.ofSymbol).map Template.text) := by
  have htext : w.map Symbol.text = (w.map Template.ofSymbol).map Template.text := by
    rw [List.map_map]
    exact List.map_congr_left fun s _ => s.text_eq
  rw [Word.text, htext]

/-- Literals stand for themselves. -/
theorem Template.reread_ofSymbol (s : Symbol Float) :
    (Template.ofSymbol s).reread = .ofSymbol s := by
  have hargs : (s.params.map Expr.num).map Expr.reread = s.params.map Expr.num := List.map_map
  unfold Template.reread Template.ofSymbol
  rw [hargs]

/-- Templates of finite numbers may be printed. -/
theorem Template.printable_ofSymbol (hname : ProperName s.name)
    (hfinite : ∀ x ∈ s.params, x.isFinite = true) : (Template.ofSymbol s).Printable := by
  refine ⟨hname, fun e he => ?_⟩
  obtain ⟨x, hx, rfl⟩ := List.mem_map.1 he
  exact Expr.printable_num (hfinite x hx)

/-- A list that is related to images is one of images itself, if what is related to an image is one. -/
theorem exists_map_of_forall₂ {α β : Type} {R : β → β → Prop} {S : α → α → Prop} {f : α → β}
    {as : List α} {bs : List β} (h : List.Forall₂ R bs (as.map f))
    (hf : ∀ b, ∀ a ∈ as, R b (f a) → ∃ a', b = f a' ∧ S a' a) :
    ∃ as', bs = as'.map f ∧ List.Forall₂ S as' as := by
  induction as generalizing bs with
  | nil =>
    cases h
    exact ⟨[], rfl, .nil⟩
  | cons a as ih =>
    cases h with
    | cons head tail =>
      obtain ⟨a', rfl, ha⟩ := hf _ a List.mem_cons_self head
      obtain ⟨as', rfl, has⟩ := ih tail fun b c hc => hf b c (List.mem_cons_of_mem a hc)
      exact ⟨a' :: as', rfl, .cons ha has⟩

/-- What agrees with the template of a symbol is the template of one that agrees. -/
theorem exists_symbol_of_agrees (h : t.Agrees (.ofSymbol s))
    (hfinite : ∀ x ∈ s.params, x.isFinite = true) : ∃ s', t = .ofSymbol s' ∧ s'.Agrees s := by
  obtain ⟨name, args, patch⟩ := t
  obtain ⟨rfl, rfl, hargs⟩ := h
  -- the arguments are numerals again, and the symbol has their values
  obtain ⟨params, rfl, hparams⟩ := exists_map_of_forall₂
    (S := fun x y => (x == y) = true) hargs fun e x hx hagrees => by
      cases hagrees with
      | num numbers => exact ⟨_, rfl, numbers.beq (Numeral.isNaN_eq_false (hfinite x hx))⟩
  exact ⟨⟨s.name, params, s.patch⟩, rfl, ⟨rfl, rfl, hparams⟩⟩

end Templates

/-! ### Words -/

/-- A text that has no blank at either end. -/
def Bare (cs : List Char) : Prop :=
  (∀ c, cs.head? = some c → Text.isBlank c = false) ∧
    ∀ c, cs.getLast? = some c → Text.isBlank c = false

theorem Bare.nil : Bare [] := ⟨by simp, by simp⟩

/-- A text between two characters that are no blanks. -/
theorem Bare.between {c d : Char} (hc : Text.isBlank c = false) (cs : List Char)
    (hd : Text.isBlank d = false) : Bare (c :: (cs ++ [d])) := by
  constructor
  · intro a ha
    obtain rfl : c = a := Option.some.inj ha
    exact hc
  · intro a ha
    rw [← List.cons_append, List.getLast?_concat] at ha
    obtain rfl : d = a := Option.some.inj ha
    exact hd

/-- Neither has a single character that is not blank. -/
theorem Bare.single {c : Char} (hc : Text.isBlank c = false) : Bare [c] := by
  constructor <;>
  · intro a ha
    obtain rfl : c = a := Option.some.inj ha
    exact hc

/-- Two such texts have none around them together. -/
theorem Bare.append {as bs : List Char} (ha : Bare as) (hb : Bare bs) : Bare (as ++ bs) := by
  constructor
  · intro c hc
    rw [List.head?_append, Option.or_eq_some_iff] at hc
    -- the first character is that of the second text where the first is empty
    rcases hc with hc | ⟨-, hc⟩
    · exact ha.1 c hc
    · exact hb.1 c hc
  · intro c hc
    rw [List.getLast?_append, Option.or_eq_some_iff] at hc
    rcases hc with hc | ⟨-, hc⟩
    · exact hb.2 c hc
    · exact ha.2 c hc

/-- Trimming has nothing to do. -/
theorem Bare.trimmed_eq {cs : List Char} (h : Bare cs) : Text.trimmed cs = cs := by
  -- no blank is dropped in front, and for the same reason none at the end
  have hdrop : ∀ {ds : List Char}, (∀ c, ds.head? = some c → Text.isBlank c = false) →
      ds.dropWhile Text.isBlank = ds := by
    intro ds hds
    cases ds with
    | nil => rfl
    | cons d ds => rw [List.dropWhile_cons_of_neg (by rw [hds d rfl]; exact Bool.false_ne_true)]
  have hlast : ∀ c, cs.reverse.head? = some c → Text.isBlank c = false := by
    intro c hc
    rw [List.head?_reverse] at hc
    exact h.2 c hc
  rw [Text.trimmed, hdrop h.1, hdrop hlast, List.reverse_reverse]

/-- Signs of symbols are not blank. -/
theorem not_isBlank_of_isSymbolChar {c : Char} (h : isSymbolChar c = true) :
    Text.isBlank c = false := by
  rw [isSymbolChar, Bool.and_eq_true, Bool.not_eq_true'] at h
  exact h.1

/-- A symbol begins with its name or the mark of a patch, and ends with its name or a
parenthesis. -/
theorem bare_symbol {s : Symbol Float} (hname : ProperName s.name) : Bare s.text.toList := by
  obtain ⟨c, hc, hcname⟩ := hname
  have hsymbol : Bare s.name.toList := by
    rw [hcname, symbolName, String.toList_ofList]
    exact .single (not_isBlank_of_isSymbolChar hc)
  have hmark : Bare (Symbol.mark s.patch).toList := by
    cases s.patch with
    | false => exact .nil
    | true => exact .single rfl
  unfold Symbol.text
  rw [String.toList_append, String.toList_append]
  refine (hmark.append hsymbol).append ?_
  -- without parameters the name comes last, and with them the closing parenthesis does
  split
  · exact .nil
  · rw [String.toList_append, String.toList_append]
    exact .between rfl _ rfl

/-- A word is printed symbol by symbol. -/
theorem Word.toList_text_cons (s : Symbol Float) (w : Word) :
    (Word.text (s :: w)).toList = s.text.toList ++ (Word.text w).toList := by
  rw [Word.text, List.map_cons, String.join_cons, String.toList_append]
  rfl

/-- So words are printed without blanks around them. -/
theorem bare_word {w : Word} (hnames : w.Proper) : Bare w.text.toList := by
  induction w with
  | nil => exact .nil
  | cons s w ih =>
    rw [Word.toList_text_cons]
    exact (bare_symbol (hnames s List.mem_cons_self)).append
      (ih fun t ht => hnames t (List.mem_cons_of_mem s ht))

/-- The text of a word is a row of templates whose arguments are literals. -/
theorem lexes_word {w : Word} (hnames : w.Proper)
    (hfinite : ∀ s ∈ w, ∀ x ∈ s.params, x.isFinite = true) :
    ∃ ts w', Repeated TemplatePart ts (List.map .ofSymbol w') ∧ Lexes w.text.toList ts [] ∧
      List.Forall₂ Symbol.Agrees w' w := by
  have hprintable : ∀ t ∈ w.map Template.ofSymbol, t.Printable := by
    intro t ht
    obtain ⟨s, hs, rfl⟩ := List.mem_map.1 ht
    exact Template.printable_ofSymbol (hnames s hs) (hfinite s hs)
  obtain ⟨ts, us, hrow, hlexes, hagree⟩ := lexes_templates hprintable
  obtain ⟨w', rfl, hw⟩ := exists_map_of_forall₂ (S := Symbol.Agrees) hagree fun t s hs h => by
    rw [Template.reread_ofSymbol] at h
    exact exists_symbol_of_agrees h (hfinite s hs)
  rw [Word.text_eq]
  exact ⟨ts, w', hrow, hlexes, hw⟩

/-- **The text of a word reads back as the word**, if its names are proper and its parameters
finite. -/
theorem Word.parse_text {w : Word} (hnames : w.Proper)
    (hfinite : ∀ s ∈ w, ∀ x ∈ s.params, x.isFinite = true) :
    ∃ w', Word.parse w.text = .ok w' ∧ List.Forall₂ Symbol.Agrees w' w := by
  obtain ⟨ts, w', hrow, hlexes, hagree⟩ := lexes_word hnames hfinite
  have hread : Template.ofChars? w.text.toList = some (List.map .ofSymbol w') :=
    Rule.templates_iff.2 ⟨ts, [], hrow, hlexes, rfl⟩
  -- arguments that are literals have their values in any environment
  have hvalue : (List.map Template.ofSymbol w').mapM (Template.instantiate Env.empty) = .ok w' :=
    Outcome.mapM_map_eq_ok (Template.instantiate_ofSymbol Env.empty) w'
  refine ⟨w', ?_, hagree⟩
  rw [Word.parse, (bare_word hnames).trimmed_eq, hread]
  change Except.mapError _ ((List.map Template.ofSymbol w').mapM (Template.instantiate Env.empty)) = _
  rw [hvalue]
  rfl

end Arbor
