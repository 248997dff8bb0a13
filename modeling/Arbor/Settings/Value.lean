/-!
# Values of settings

Settings come as structured values: numbers, texts, lists and objects. A whole number and a number
with a fraction are two different things, since some settings admit only the former; whole numbers
may be of any size. The members of an object keep their order, and no key stands twice.
-/

namespace Arbor

/-- **Value.** -/
inductive Value
  | null
  | bool (b : Bool)
  | int (n : Int)
  | float (x : Float)
  | str (s : String)
  | list (vs : List Value)
  | object (members : List (String × Value))

namespace Value

/-- The members of an object. -/
abbrev Members := List (String × Value)

/-- The member under a key, or a value to take in its place. -/
def Members.findD (ms : Members) (key : String) (default : Value) : Value :=
  (ms.lookup key).getD default

end Value

end Arbor
