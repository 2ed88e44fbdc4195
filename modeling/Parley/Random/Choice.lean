/-!
Choosing by weight. A random number is stretched to the total of the weights, and the first item is
taken whose weight, added to all weights in front of it, exceeds it.
-/
namespace Parley

/-- The arithmetic that weights are compared by. -/
structure Weighing (m : Type → Type) (α : Type) where
  /-- The total of no weights. -/
  nothing : α
  /-- What the running sum starts with. -/
  origin : α
  add : α → α → m α
  stretch : α → α → m α
  isPositive : α → Bool
  below : α → α → Bool

namespace Weighing

variable {m : Type → Type} [Monad m] {α : Type}

def total (w : Weighing m α) (weights : List α) : m α := weights.foldlM w.add w.nothing

/-- The number of the first weight up to which the sum exceeds a limit; if rounding has left the
limit beyond all sums, the number of the last. -/
def firstBeyond (w : Weighing m α) (limit : α) : α → Nat → List α → m Nat
  | _, number, [] => pure (number - 1)
  | sum, number, weight :: rest => do
      let sum ← w.add sum weight
      if w.below limit sum then pure number else firstBeyond w limit sum (number + 1) rest

/-- Chooses one of some weights by one random number, or the first without any if the total is
not positive. -/
def choose (w : Weighing m α) (draw : m α) (weights : List α) : m Nat := do
  let total ← w.total weights
  if w.isPositive total then
    let limit ← w.stretch (← draw) total
    w.firstBeyond limit w.origin 0 weights
  else pure 0

end Weighing
end Parley
