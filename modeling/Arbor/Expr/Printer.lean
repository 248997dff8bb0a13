import Arbor.Expr.Basic
import Arbor.Numeral.Layout

/-!
# Expressions as text

Every operator is written with its operands inside parentheses, so the text shows the tree; literals
and names stand bare.
-/

namespace Arbor.Expr

/-- The text of an expression. -/
def text : Expr → String
  | num v => Numeral.text v
  | truth b => if b then "true" else "false"
  | var name => name
  | neg e => "(-" ++ e.text ++ ")"
  | not e => "(!" ++ e.text ++ ")"
  | bin op a b => "(" ++ a.text ++ " " ++ op.text ++ " " ++ b.text ++ ")"

end Arbor.Expr
