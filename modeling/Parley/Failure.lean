import Parley.Number.Notation
import Parley.Value.Basic

/-!
What can stop a running script.
-/
namespace Parley

/-- The ways in which an expression has no value. -/
inductive EvalError where
  | keyNotString (found : Kind)
  | notNegatable (found : Kind) (shown : String)
  | mapIndexNotString (found : Kind)
  | indexNotWhole (shown : String)
  | indexOutOfRange (position : Int)
  | notIndexable (found : Kind)
  | noMembers (member : String) (found : Kind)
  | noVariables (name : String)
  | noElements (found : Kind)
  | notAddable (left right : Kind)
  | notNumbers (symbol : String) (left right : Kind)
  | divisionByZero
  | notComparable (left right : Kind)
  | notNumeric (shown : String)
  | invalidLocalTime (shown : String)
  deriving DecidableEq

def EvalError.message : EvalError → String
  | keyNotString found => "Map key must be a string, found " ++ found.name
  | notNegatable found shown => "Cannot negate " ++ found.name ++ ": " ++ shown
  | mapIndexNotString found => "Map index must be a string, found " ++ found.name
  | indexNotWhole shown => "Index must be an integer, found " ++ shown
  | indexOutOfRange position => "Index out of range: " ++ intText position
  | notIndexable found => "Cannot index " ++ found.name
  | noMembers member found => "Cannot read member \"" ++ member ++ "\" of " ++ found.name
  | noVariables name => "No variables to assign $" ++ name ++ " to"
  | noElements found => "Operator \"in\" not supported for " ++ found.name
  | notAddable left right => "Cannot add " ++ left.name ++ " and " ++ right.name
  | notNumbers symbol left right =>
      "Operator \"" ++ symbol ++ "\" needs numbers, found " ++ left.name ++ " and " ++ right.name
  | divisionByZero => "Division by zero"
  | notComparable left right => "Cannot compare " ++ left.name ++ " with " ++ right.name
  | notNumeric shown => "Value is not a number: " ++ shown
  | invalidLocalTime shown => "Invalid local time value: " ++ shown

inductive Failure where
  /-- An expression has no value. -/
  | evaluation (error : EvalError)
  /-- A whole number is beyond the range of binary numbers, or an infinite one is no position. -/
  | overflow
  /-- The number that is none is no position. -/
  | noPosition
  /-- A whole number has too many digits to be written. -/
  | tooLong
  /-- A listener refused a change. -/
  | listener
  /-- A name that should have a value has none. -/
  | missing
  deriving DecidableEq

end Parley
