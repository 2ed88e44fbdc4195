import Parley.Number.Binary64

/-!
The values that scripts compute with.
-/
namespace Parley

/-- A script value. No key stands twice in a map. -/
inductive Value where
  | null
  | bool (b : Bool)
  | int (n : Int)
  | float (x : Binary64)
  | text (s : String)
  | list (items : List Value)
  | map (entries : List (String × Value))

instance : Inhabited Value := ⟨.null⟩

/-- What a script may ask of a value; whole and binary numbers are one kind. -/
inductive Kind where
  | null
  | boolean
  | number
  | string
  | list
  | map
  deriving DecidableEq

def Kind.name : Kind → String
  | .null => "null"
  | .boolean => "boolean"
  | .number => "number"
  | .string => "string"
  | .list => "list"
  | .map => "map"

namespace Value

def kind : Value → Kind
  | null => .null
  | bool _ => .boolean
  | int _ | float _ => .number
  | text _ => .string
  | list _ => .list
  | map _ => .map

/-- Null, false, zero and whatever is empty count as false. -/
def truthy : Value → Bool
  | null => false
  | bool b => b
  | int n => n != 0
  | float x => !x.isZero
  | text s => !s.isEmpty
  | list items => !items.isEmpty
  | map entries => !entries.isEmpty

end Value

/-- Variable names with their values, in the order of their first assignment. -/
abbrev Bindings := List (String × Value)

end Parley
