import Arbor.Random.Draws

/-!
# The Mersenne twister

The generator MT19937 keeps 624 words of 32 bits. Its outputs are the words in order, each tempered;
after the last one all words are renewed by a linear recurrence. An integer seeds it with the 32-bit
digits of its magnitude. A draw is made of two outputs, of which it takes the upper 27 and 26 bits,
and is a multiple of `2 ^ -53` in the interval from zero to one, without one.
-/

namespace Arbor

/-- **Twister.** The words, and the place of the next output among them. -/
structure Twister where
  words : Array UInt32
  position : Nat

namespace Twister

/-- The number of words. -/
def degree : Nat := 624

/-- The distance, in words, of the second term of the recurrence. -/
def shift : Nat := 397

/-- The word at a place, where places go round. -/
def word (words : Array UInt32) (i : Nat) : UInt32 := words.getD (i % degree) 0

/-! ### Seeding -/

/-- The words that one number alone gives. -/
def ofWord (seed : UInt32) : Array UInt32 :=
  (List.range (degree - 1)).foldl
    (fun (words : Array UInt32) (i : Nat) =>
      let previous := word words i
      words.push ((1812433253 : UInt32) * (previous ^^^ (previous >>> 30)) + UInt32.ofNat (i + 1)))
    #[seed]

/-- One step of mixing at place `i`, from the word before it. The place after the last is the second
one, and the first word then becomes the last. Gives the next place, too. -/
def mix (factor : UInt32) (combine : UInt32 → UInt32) (words : Array UInt32) (i : Nat) :
    Array UInt32 × Nat :=
  let previous := word words (i - 1)
  let mixed := combine (word words i ^^^ ((previous ^^^ (previous >>> 30)) * factor))
  let words := words.setIfInBounds i mixed
  if i + 1 < degree then (words, i + 1) else (words.setIfInBounds 0 mixed, 1)

/-- The words that a key gives: every word is mixed with the digits of the key in turn, then all
once more with their own places. -/
def ofKey (key : Array UInt32) : Array UInt32 :=
  let (words, i) := (List.range (max degree key.size)).foldl
    (fun (words, i) n =>
      let j := n % key.size
      mix 1664525 (· + key.getD j 0 + UInt32.ofNat j) words i)
    (ofWord 19650218, 1)
  let (words, _) := (List.range (degree - 1)).foldl
    (fun (words, i) _ => mix 1566083941 (· - UInt32.ofNat i) words i)
    (words, i)
  words.setIfInBounds 0 0x80000000

/-- The digits of a number to the base `2 ^ 32`, least significant first; zero has one. -/
def key (n : Nat) : Array UInt32 :=
  ((List.range (n.log2 / 32 + 1)).map fun i => UInt32.ofNat (n >>> (32 * i))).toArray

/-- **Seeding** by an integer, whose sign does not matter. -/
def ofSeed (seed : Int) : Twister := ⟨ofKey (key seed.natAbs), degree⟩

/-! ### Output -/

/-- One step of the recurrence: the word at place `i`, renewed. -/
def renewWord (words : Array UInt32) (i : Nat) : Array UInt32 :=
  let joined := (word words i &&& 0x80000000) ||| (word words (i + 1) &&& 0x7fffffff)
  let twisted := if joined &&& 1 = 0 then joined >>> 1 else (joined >>> 1) ^^^ 0x9908b0df
  words.setIfInBounds i (word words (i + shift) ^^^ twisted)

/-- All words renewed, from the first to the last. -/
def renew (words : Array UInt32) : Array UInt32 := (List.range degree).foldl renewWord words

/-- The tempering of an output. -/
def temper (y : UInt32) : UInt32 :=
  let y := y ^^^ (y >>> 11)
  let y := y ^^^ ((y <<< 7) &&& 0x9d2c5680)
  let y := y ^^^ ((y <<< 15) &&& 0xefc60000)
  y ^^^ (y >>> 18)

/-- The next output. -/
def output (t : Twister) : UInt32 × Twister :=
  let t := if t.position < degree then t else ⟨renew t.words, 0⟩
  (temper (word t.words t.position), { t with position := t.position + 1 })

/-- **Draw.** -/
def draw (t : Twister) : Float × Twister :=
  let (a, t) := t.output
  let (b, t) := t.output
  let bits : UInt64 := (a >>> 5).toUInt64 * (0x4000000 : UInt64) + (b >>> 6).toUInt64
  (bits.toFloat / 9007199254740992.0, t)

instance : Draws Twister := ⟨draw⟩

end Twister

end Arbor
