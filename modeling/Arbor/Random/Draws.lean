/-!
# Sources of random draws

A derivation takes its random numbers from a source, which hands out one number at a time and says
how it goes on. Nothing else is asked of a source (`Draws`). Besides the generator of
`Random.Twister` there are two simple ones: `Replay` gives a list of numbers over and over, and
`Counted` counts the draws from another source.
-/

namespace Arbor

/-- **Source of draws.** The next number, and the source after it. -/
class Draws (σ : Type) where
  next : σ → Float × σ

/-- A list of numbers that is given from its start to its end, over and over. -/
structure Replay where
  values : Array Float
  position : Nat := 0
  deriving DecidableEq, Repr

instance : Draws Replay where
  next r := (r.values.getD (r.position % r.values.size) 0.0, { r with position := r.position + 1 })

/-- A source together with the number of draws made from it. -/
structure Counted (σ : Type) where
  source : σ
  count : Nat := 0
  deriving DecidableEq, Repr

instance {σ : Type} [Draws σ] : Draws (Counted σ) where
  next c :=
    let (x, source) := Draws.next c.source
    (x, { source, count := c.count + 1 })

end Arbor
