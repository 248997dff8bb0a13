import Arbor.Numeral.Layout

/-!
# Symbols and words

A word is what an L-system derives: a row of symbols. A symbol has a name and a list of parameters,
such as `A(3.3,1)`; the mark `~` in front of it says that a surface patch is to be placed there. The
type of the parameters is left open (`Symbol α`), because the shape of a symbol, its name, mark and
number of parameters, is of interest by itself: it is the symbol with every parameter forgotten.
-/

namespace Arbor

/-- **Symbol.** A name, its parameters in order, and the patch mark. -/
structure Symbol (α : Type) where
  name : String
  params : List α := []
  patch : Bool := false
  deriving DecidableEq, Repr

namespace Symbol

variable {α β : Type}

/-- The number of parameters. -/
def arity (s : Symbol α) : Nat := s.params.length

/-- The same symbol with every parameter replaced by its image. -/
def map (f : α → β) (s : Symbol α) : Symbol β := { s with params := s.params.map f }

@[simp] theorem map_name (f : α → β) (s : Symbol α) : (s.map f).name = s.name := rfl

@[simp] theorem map_patch (f : α → β) (s : Symbol α) : (s.map f).patch = s.patch := rfl

@[simp] theorem arity_map (f : α → β) (s : Symbol α) : (s.map f).arity = s.arity := by
  simp [arity, map]

/-- What stands in front of a name. -/
def mark (patch : Bool) : String := if patch then "~" else ""

/-- The text of a symbol; without parameters there are no parentheses. -/
def text (s : Symbol Float) : String :=
  mark s.patch ++ s.name ++
    if s.params = [] then "" else "(" ++ ",".intercalate (s.params.map Numeral.text) ++ ")"

end Symbol

/-- **Word.** A row of symbols with numbers for parameters. -/
abbrev Word := List (Symbol Float)

namespace Word

/-- The text of a word: its symbols one after the other. -/
def text (w : Word) : String := String.join (w.map Symbol.text)

/-- The names of a word, one after the other. -/
def names (w : Word) : String := String.join (w.map Symbol.name)

end Word

end Arbor
