import Parley.Number.Binary64
import Parley.Random.Twister

/-!
Sources of random numbers from zero up to one, one excluded.
-/
namespace Parley

inductive Generator where
  | seeded (t : Twister)
  /-- Given numbers one after the other, from the start again when they have come to their end. -/
  | cyclic (all left : List Binary64)

/-- A generator, and how many numbers have been taken from it. -/
structure RandomSource where
  generator : Generator
  taken : Nat

namespace RandomSource

def ofSeed (seed : Int) : RandomSource := ⟨.seeded (.ofSeed seed), 0⟩

def ofDraws (draws : List Binary64) : RandomSource := ⟨.cyclic draws draws, 0⟩

/-- A number of fifty-three random bits behind the point. -/
def ofWords (a b : UInt32) : Binary64 :=
  .ofRatio false ((a >>> 5).toNat * Nat.pow 2 26 + (b >>> 6).toNat) (Nat.pow 2 53)

def next (s : RandomSource) : Binary64 × RandomSource :=
  match s.generator with
  | .seeded t =>
      let (a, t) := t.draw
      let (b, t) := t.draw
      (ofWords a b, ⟨.seeded t, s.taken + 1⟩)
  | .cyclic all (x :: left) => (x, ⟨.cyclic all left, s.taken + 1⟩)
  | .cyclic [] [] => (.zero false, ⟨.cyclic [] [], s.taken + 1⟩)
  | .cyclic (x :: more) [] => (x, ⟨.cyclic (x :: more) more, s.taken + 1⟩)

/-- The first numbers of a source. -/
def first (s : RandomSource) : Nat → List Binary64
  | 0 => []
  | count + 1 =>
      let (x, s) := s.next
      x :: first s count

end RandomSource
end Parley
