/-!
The Mersenne twister of period `2¹⁹⁹³⁷ - 1`, seeded with a list of words.
-/
namespace Parley

/-- The 624 words of the state and which of them is the next. -/
structure Twister where
  words : Array UInt32
  next : Nat

namespace Twister

def size : Nat := 624

def word (words : Array UInt32) (i : Nat) : UInt32 := words.getD (i % size) 0

/-- The state word `i` mixed from the one before it. -/
def mixed (words : Array UInt32) (i : Nat) : UInt32 :=
  let before := word words (i + size - 1)
  before ^^^ (before >>> 30)

def ofWord (seed : UInt32) : Array UInt32 :=
  (List.range (size - 1)).foldl (fun words k =>
    let i := k + 1
    words.setIfInBounds i (1812433253 * mixed words i + i.toUInt32))
    ((Array.replicate size 0).setIfInBounds 0 seed)

/-- Puts a word at a place of the ring; the last one is copied to the front, where the way round
starts again. -/
def put (words : Array UInt32) (i : Nat) (w : UInt32) : Array UInt32 × Nat :=
  let words := words.setIfInBounds i w
  if i + 1 < size then (words, i + 1) else (words.setIfInBounds 0 w, 1)

def ofKey (key : Array UInt32) : Twister :=
  let (words, i) := (List.range (max size key.size)).foldl (fun (words, i) k =>
    let j := k % key.size
    put words i ((word words i ^^^ (mixed words i * 1664525)) + key.getD j 0 + j.toUInt32))
    (ofWord 19650218, 1)
  let (words, _) := (List.range (size - 1)).foldl (fun (words, i) _ =>
    put words i ((word words i ^^^ (mixed words i * 1566083941)) - i.toUInt32)) (words, i)
  ⟨words.setIfInBounds 0 0x80000000, size⟩

/-- The words of a number, the lowest first, one at least. -/
def keyOf (n : Nat) : Array UInt32 :=
  let count := max 1 ((n.log2 + 32) / 32)
  ((List.range count).map fun i => (n >>> (32 * i)).toUInt32).toArray

def ofSeed (seed : Int) : Twister := ofKey (keyOf seed.natAbs)

/-- The next 624 words. -/
def turn (words : Array UInt32) : Array UInt32 :=
  (List.range size).foldl (fun words i =>
    let y := (word words i &&& 0x80000000) ||| (word words (i + 1) &&& 0x7fffffff)
    let twist : UInt32 := if y &&& 1 = 1 then 0x9908b0df else 0
    words.setIfInBounds i (word words (i + 397) ^^^ (y >>> 1) ^^^ twist)) words

def temper (y : UInt32) : UInt32 :=
  let y := y ^^^ (y >>> 11)
  let y := y ^^^ ((y <<< 7) &&& 0x9d2c5680)
  let y := y ^^^ ((y <<< 15) &&& 0xefc60000)
  y ^^^ (y >>> 18)

/-- The next word and the state behind it. -/
def draw (t : Twister) : UInt32 × Twister :=
  if t.next < size then (temper (word t.words t.next), { t with next := t.next + 1 })
  else
    let words := turn t.words
    (temper (word words 0), ⟨words, 1⟩)

end Twister
end Parley
