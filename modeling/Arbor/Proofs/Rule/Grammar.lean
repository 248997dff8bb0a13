import Arbor.Proofs.Expr.Grammar
import Arbor.Rule.Parser

/-!
# The grammar of rules

The form of a rule, said without a reader. A rule is a row of terminals, and `Rule.Sentence ts w`
says that the terminals `ts` have the form of a rule with the parts `w`:

    rule        left part, names?, right context?, section*, "->", template*
    left part   symbol | symbol+ "<" symbol
    names       "(" (name ("," name)*)? ")"
    right       ">" symbol+
    section     ":" ("*" | expression)
    template    "~"? symbol ("(" (expression ("," expression)*)? ")")?

What terminals a text is cut into depends on the place: the same `-` is a symbol, a sign of an
expression, or half an arrow. A terminal may stand after others if some sentence goes on with it
(`Rule.Viable`), and among those that may stand next the one with the longest lexeme is taken
(`Rule.Munch`). Cutting a text to its end in this way is `Rule.Scan`. A text has the parts `w` if its
terminals are a sentence with these parts (`Rule.Reading`).

The marks `<` and `>` around a predecessor and the name of a parameter are terminals of their own,
apart from the comparisons and the names of expressions. No place has both.
-/

namespace Arbor

/-! ### Terminals -/

/-- The characters that mark a part of a rule: a left context, a right context, and a patch. -/
inductive Mark
  | before | after | patch
  deriving DecidableEq

/-- How a mark is written. -/
def Mark.char : Mark → Char
  | before => '<' | after => '>' | patch => '~'

/-- **Terminal.** -/
inductive Terminal
  | symbol (c : Char)
  | mark (m : Mark)
  | param (name : String)
  | token (t : Token)

/-- The ways of writing a terminal. The words that an expression keeps for the truth values are
names of parameters like any other. -/
inductive Terminal.Lexeme : Terminal → List Char → Prop
  | symbol {c : Char} (proper : isSymbolChar c = true) : Lexeme (.symbol c) [c]
  | mark (m : Mark) : Lexeme (.mark m) [m.char]
  | param {l : List Char} (identifier : Token.Identifier l) : Lexeme (.param (String.ofList l)) l
  | token {t : Token} {l : List Char} (lexeme : t.Lexeme l) : Lexeme (.token t) l

namespace Rule

/-! ### Sentences -/

section Lists

variable {α : Type} (Item : List Terminal → α → Prop)

/-- One or more items with commas between them. -/
inductive Listed : List Terminal → List α → Prop
  | one {ts : List Terminal} {a : α} (item : Item ts a) : Listed ts [a]
  | more {ts us : List Terminal} {a : α} {as : List α} (item : Item ts a) (others : Listed us as) :
      Listed (ts ++ .token .comma :: us) (a :: as)

/-- A list of items in parentheses, which may be empty or missing. -/
inductive Parenthesized : List Terminal → List α → Prop
  | absent : Parenthesized [] []
  | empty : Parenthesized [.token .lparen, .token .rparen] []
  | list {ts : List Terminal} {as : List α} (items : Listed Item ts as) :
      Parenthesized (.token .lparen :: (ts ++ [.token .rparen])) as

/-- Any number of items one after the other. -/
inductive Repeated : List Terminal → List α → Prop
  | nil : Repeated [] []
  | cons {ts us : List Terminal} {a : α} {as : List α} (item : Item ts a)
      (others : Repeated us as) : Repeated (ts ++ us) (a :: as)

end Lists

/-- The name of a parameter. -/
inductive ParamName : List Terminal → String → Prop
  | mk (s : String) : ParamName [.param s] s

/-- An expression. -/
inductive Phrase : List Terminal → Expr → Prop
  | mk {ts : List Token} {e : Expr} (derives : Expr.Derives .disjunction ts e) :
      Phrase (ts.map .token) e

/-- A predecessor, alone or after its left context. -/
inductive LeftPart : List Terminal → Option (List Char) → Char → Prop
  | alone (p : Char) : LeftPart [.symbol p] none p
  | after {cs : List Char} (nonempty : cs ≠ []) (p : Char) :
      LeftPart (cs.map .symbol ++ [.mark .before, .symbol p]) (some cs) p

/-- A right context, which may be missing. -/
inductive RightPart : List Terminal → Option (List Char) → Prop
  | absent : RightPart [] none
  | present {cs : List Char} (nonempty : cs ≠ []) :
      RightPart (.mark .after :: cs.map .symbol) (some cs)

/-- A section. -/
inductive SectionPart : List Terminal → Section → Prop
  | always : SectionPart [.token .colon, .token (.op .mul)] .always
  | expr {ts : List Terminal} {e : Expr} (phrase : Phrase ts e) :
      SectionPart (.token .colon :: ts) (.expr e)

/-- A template. -/
inductive TemplatePart : List Terminal → Template → Prop
  | plain (c : Char) {ts : List Terminal} {args : List Expr} (list : Parenthesized Phrase ts args) :
      TemplatePart (.symbol c :: ts) ⟨symbolName c, args, false⟩
  | patch (c : Char) {ts : List Terminal} {args : List Expr} (list : Parenthesized Phrase ts args) :
      TemplatePart (.mark .patch :: .symbol c :: ts) ⟨symbolName c, args, true⟩

/-- **Sentence.** The terminals have the form of a rule with these parts. -/
inductive Sentence : List Terminal → Written → Prop
  | mk {l b r s u : List Terminal} {w : Written}
      (left : LeftPart l w.left w.predecessor)
      (params : Parenthesized ParamName b w.params)
      (right : RightPart r w.right)
      (sections : Repeated SectionPart s w.sections)
      (successor : Repeated TemplatePart u w.successor) :
      Sentence (l ++ (b ++ (r ++ (s ++ .token .arrow :: u)))) w

/-! ### Cutting a text into terminals -/

/-- After `p` the terminal `t` may stand: some sentence goes on so. -/
def Viable (p : List Terminal) (t : Terminal) : Prop := ∃ rest w, Sentence (p ++ t :: rest) w

/-- **Longest match.** Of the terminals that are allowed, `t` is one with the longest lexeme at the
start of `cs`, where only spaces and tabs are skipped; `rest` follows it. -/
structure Munch (may : Terminal → Prop) (cs : List Char) (t : Terminal) (rest : List Char) :
    Prop where
  allowed : may t
  lexeme : ∃ l, t.Lexeme l ∧ Token.skipGaps cs = l ++ rest
  longest : ∀ t' l' rest', may t' → t'.Lexeme l' → Token.skipGaps cs = l' ++ rest' →
    rest.length ≤ rest'.length

/-- **Scanning.** After the terminals `p` the text `cs` is cut into the terminals `ts`, each the
longest match among those that may stand there. -/
inductive Scan : List Terminal → List Char → List Terminal → Prop
  | done {p : List Terminal} {cs : List Char} (gaps : Token.skipGaps cs = []) : Scan p cs []
  | step {p ts : List Terminal} {cs rest : List Char} {t : Terminal}
      (munch : Munch (Viable p) cs t rest) (more : Scan (p ++ [t]) rest ts) : Scan p cs (t :: ts)

/-- **Reading.** The text has the form of a rule with the parts `w`. -/
def Reading (s : String) (w : Written) : Prop := ∃ ts, Scan [] s.toList ts ∧ Sentence ts w

end Rule

end Arbor
