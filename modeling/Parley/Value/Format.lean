import Parley.Failure
import Parley.Json.Printer
import Parley.Number.Numeral

/-!
The text of a value in dialogue, and the number that a value stands for.
-/
namespace Parley.Value

mutual

/-- Whether all whole numbers in a value can be written. -/
def isWritable : Value → Bool
  | .int n => isWritableInt n
  | .list items => areWritable items
  | .map entries => entriesAreWritable entries
  | _ => true

def areWritable : List Value → Bool
  | [] => true
  | item :: rest => isWritable item && areWritable rest

def entriesAreWritable : List (String × Value) → Bool
  | [] => true
  | (_, item) :: rest => isWritable item && entriesAreWritable rest

end

/-- The whole text of a value: a text stands for itself, a list or a map for its JSON text. -/
def written : Value → String
  | .null => "null"
  | .bool b => if b then "true" else "false"
  | .int n => intText n
  | .float x => x.text
  | .text s => s
  | nested => Json.compact .required (Json.ofValue nested)

/-- The text of a value, if it can be written. -/
def format (v : Value) : Except Failure String :=
  if v.isWritable then .ok v.written else .error .tooLong

/-- A number as it is; a text as the whole number or else the binary number that it writes. -/
def number? : Value → Option Value
  | .int n => some (.int n)
  | .float x => some (.float x)
  | .text s =>
      let stripped := strip s
      match Numeral.int? stripped with
      | some n => some (.int n)
      | none => (Numeral.float? stripped).map .float
  | _ => none

end Parley.Value
