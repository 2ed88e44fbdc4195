import Parley.Assoc
import Parley.Value.Basic

/-!
When two values are the same and which of two comes first. A boolean is never a number; whole and
binary numbers are compared by their exact values; the order of the keys of a map does not count.
-/
namespace Parley

/-- The order of two texts by code points. -/
def compareText (a b : String) : Ordering :=
  if a < b then .lt else if b < a then .gt else .eq

namespace Value

mutual

def same : Value → Value → Bool
  | .null, .null => true
  | .bool a, .bool b => a == b
  | .int a, .int b => a == b
  | .int a, .float b => Binary64.compareInt? a b == some .eq
  | .float a, .int b => Binary64.compareInt? b a == some .eq
  | .float a, .float b => a.compare? b == some .eq
  | .text a, .text b => a == b
  | .list xs, .list ys => sameItems xs ys
  | .map xs, .map ys => xs.length == ys.length && sameEntries xs ys
  | _, _ => false

def sameItems : List Value → List Value → Bool
  | [], [] => true
  | x :: xs, y :: ys => same x y && sameItems xs ys
  | _, _ => false

/-- Whether every entry has a same value under its key in the second map. -/
def sameEntries : List (String × Value) → List (String × Value) → Bool
  | [], _ => true
  | (key, x) :: rest, ys =>
      (match Assoc.get? key ys with
        | some y => same x y
        | none => false) && sameEntries rest ys

end

/-- The order of two numbers or two texts. A number that is none counts as equal to all. -/
def order? : Value → Value → Option Ordering
  | .int a, .int b => some (compare a b)
  | .int a, .float b => some ((Binary64.compareInt? a b).getD .eq)
  | .float a, .int b => some (((Binary64.compareInt? b a).map Ordering.swap).getD .eq)
  | .float a, .float b => some ((a.compare? b).getD .eq)
  | .text a, .text b => some (compareText a b)
  | _, _ => none

end Value
end Parley
