import Arbor.Expr.Eval
import Arbor.Expr.Printer
import Arbor.Symbol

/-!
# Rules

A rule replaces a symbol of one name, its predecessor, by a row of new symbols, its successor. It
may ask for a neighbour on either side (its *context*), name the symbol's parameters, put a
condition on them, and carry a weight, by which it competes with other weighted rules. A successor
is a row of templates, whose arguments are expressions over the named parameters.

* `Rule.fits` and `Rule.contextKind`: whether the neighbours are those asked for, and how much was
  asked;
* `Rule.accepts`: whether a symbol has the right number of parameters and meets the condition;
* `Rule.produce`: the successor for a symbol.
-/

namespace Arbor

/-! ### Templates -/

/-- **Template.** One symbol of a successor, with expressions for parameters. -/
structure Template where
  name : String
  args : List Expr := []
  patch : Bool := false
  deriving BEq, DecidableEq, Repr

namespace Template

/-- The symbol that a template stands for in an environment. -/
def instantiate (env : Env) (t : Template) : Except EvalError (Symbol Float) := do
  return ⟨t.name, ← t.args.mapM (Expr.eval env), t.patch⟩

/-- The text of a template. -/
def text (t : Template) : String :=
  Symbol.mark t.patch ++ t.name ++
    if t.args.isEmpty then "" else "(" ++ ",".intercalate (t.args.map Expr.text) ++ ")"

end Template

/-! ### Rules and their context -/

/-- **Rule.** A rule that was read keeps its text, which takes no part in equality. -/
structure Rule where
  predecessor : String
  params : List String := []
  left : Option String := none
  right : Option String := none
  condition : Option Expr := none
  weight : Option Float := none
  successor : List Template := []
  source : Option String := none
  deriving BEq, DecidableEq, Repr

/-- What a rule asks of the neighbours, from the most specific to the least. -/
inductive ContextKind
  | both | left | right | free
  deriving DecidableEq, Repr

namespace ContextKind

/-- All kinds, the most specific first. -/
def all : List ContextKind := [both, left, right, free]

/-- The place of a kind among `all`. -/
def rank : ContextKind → Nat
  | both => 0 | left => 1 | right => 2 | free => 3

end ContextKind

/-- **Neighbours.** The names of the symbols before and after a symbol, where there are any. -/
structure Neighbours where
  left : Option String := none
  right : Option String := none
  deriving DecidableEq, Repr

namespace Rule

/-- The same rule without its text. -/
def unsourced (r : Rule) : Rule := { r with source := none }

/-- Whether two rules say the same, whatever their texts. -/
def sameAs (r s : Rule) : Bool := r.unsourced == s.unsourced

/-- A weighted rule is drawn by lot among its like. -/
def isStochastic (r : Rule) : Bool := r.weight.isSome

/-- The weight in a lot; a rule without one has none of it. -/
def lot (r : Rule) : Float := r.weight.getD 0.0

/-- How much a rule asks of the neighbours. -/
def contextKind (r : Rule) : ContextKind :=
  match r.left, r.right with
  | some _, some _ => .both
  | some _, none => .left
  | none, some _ => .right
  | none, none => .free

/-- A rule that asks for no neighbour. -/
def isContextFree (r : Rule) : Bool := r.left.isNone && r.right.isNone

/-- **Context.** Whether the neighbours are those that the rule asks for. -/
def fits (r : Rule) (ctx : Neighbours) : Bool :=
  (r.left.isNone || r.left = ctx.left) && (r.right.isNone || r.right = ctx.right)

/-! ### Text -/

/-- The text of a rule made from its parts. -/
def canonicalText (r : Rule) : String :=
  let head := r.predecessor ++ if r.params = [] then "" else "(" ++ ",".intercalate r.params ++ ")"
  let head := match r.left with
    | some l => l ++ " < " ++ head
    | none => head
  let head := match r.right with
    | some s => head ++ " > " ++ s
    | none => head
  let head := match r.condition with
    | some c => head ++ " : " ++ c.text
    | none => head
  let head := match r.weight with
    | some w => head ++ " : " ++ Numeral.text w
    | none => head
  head ++ " -> " ++ String.join (r.successor.map Template.text)

/-- The text of a rule: the one it was read from, if it was. -/
def text (r : Rule) : String := r.source.getD r.canonicalText

/-! ### Applying a rule to a symbol -/

/-- A rule and a symbol that differ in the number of parameters. -/
structure ArityMismatch where
  rule : Rule
  symbol : Symbol Float
  deriving DecidableEq, Repr

/-- The wording of a mismatch. -/
def ArityMismatch.message (e : ArityMismatch) : String :=
  s!"rule '{e.rule.text}' binds {e.rule.params.length} parameter(s) " ++
    s!"but symbol {e.symbol.text} has {e.symbol.arity}"

/-- Whether a symbol has as many parameters as the rule names. -/
def matchesArity (r : Rule) (s : Symbol Float) : Bool := r.params.length = s.arity

/-- The named parameters of a symbol, by position. -/
def bindings (r : Rule) (s : Symbol Float) : List (String × Float) := r.params.zip s.params

/-- The bindings of a symbol that has the right number of parameters. -/
def bind (r : Rule) (s : Symbol Float) : Except ArityMismatch (List (String × Float)) :=
  if r.matchesArity s then .ok (r.bindings s) else .error ⟨r, s⟩

/-- The environment in which a rule's expressions are read at a symbol. -/
def env (r : Rule) (s : Symbol Float) : Env := Env.ofList (r.bindings s)

/-- Whether a symbol meets the condition, if there is one. -/
def holds (r : Rule) (s : Symbol Float) : Except EvalError Bool :=
  match r.condition with
  | some c => c.isTrue (r.env s)
  | none => .ok true

/-- **Acceptance.** The symbol has the right number of parameters and meets the condition. -/
def accepts (r : Rule) (s : Symbol Float) : Except EvalError Bool :=
  if r.matchesArity s then r.holds s else .ok false

/-- Why a rule has no successor for a symbol. -/
inductive ProduceError
  | arity (cause : ArityMismatch)
  | eval (cause : EvalError)
  deriving DecidableEq, Repr

/-- The successor with the symbol's parameters put in. -/
def expand (r : Rule) (s : Symbol Float) : Except EvalError Word :=
  r.successor.mapM (Template.instantiate (r.env s))

/-- **Successor.** The symbols that take the place of `s`, whatever its context and the
condition. -/
def produce (r : Rule) (s : Symbol Float) : Except ProduceError Word :=
  if r.matchesArity s then (r.expand s).mapError .eval else .error (.arity ⟨r, s⟩)

end Rule

end Arbor
