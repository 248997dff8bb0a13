import Arbor.Random.Draws

/-!
# Roulette

Weighted candidates lie one after the other on a line, each as long as its weight. A draw between
zero and one is a point on that line, as a part of its whole length, and picks the candidate that it
falls on (`Roulette.pick`). A point past the end picks the last candidate. The number type is left
open: with exact arithmetic no point of the interval falls past the end, while doubles may fall
short by rounding.
-/

namespace Arbor.Roulette

variable {α : Type}

/-- The whole length of the line. -/
def total [Add α] [OfNat α 0] (weights : List α) : α := weights.foldl (· + ·) 0

/-- The first candidate whose far end, counted from `reached`, lies beyond `point`; the last one if
there is none. -/
def land [Add α] [LT α] [DecidableLT α] (point : α) (reached : α) : List α → Nat
  | [] => 0
  | [_] => 0
  | w :: ws => if point < reached + w then 0 else land point (reached + w) ws + 1

/-- **Pick.** The place of the candidate that a draw falls on. -/
def pick [Add α] [Mul α] [OfNat α 0] [LT α] [DecidableLT α] (weights : List α) (draw : α) : Nat :=
  land (draw * total weights) 0 weights

end Arbor.Roulette
