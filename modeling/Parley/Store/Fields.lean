import Parley.Store.IntText
import Parley.Store.Record
import Parley.Value.Order

/-!
Users and variables as fields by name, in which they are stored. Reading refuses unknown fields and
values of a wrong kind; whole numbers may also be written as booleans, as binary numbers without a
fraction and as texts.
-/
namespace Parley

namespace Value

mutual

/-- The value with ones and zeros in place of its booleans. -/
def counted : Value → Value
  | .bool b => .int (if b then 1 else 0)
  | .list items => .list (countedItems items)
  | .map entries => .map (countedEntries entries)
  | other => other

def countedItems : List Value → List Value
  | [] => []
  | item :: rest => counted item :: countedItems rest

def countedEntries : List (String × Value) → List (String × Value)
  | [] => []
  | (key, item) :: rest => (key, counted item) :: countedEntries rest

end

/-- Whether two values are the same if booleans count as numbers. -/
def alike (a b : Value) : Bool := a.counted.same b.counted

end Value

namespace Fields

def int? : Value → Option Int
  | .int n => some n
  | .bool b => some (if b then 1 else 0)
  | .float x =>
      match x.isWhole, x.truncate? with
      | true, some n => if n.natAbs < Nat.pow 2 63 then some n else none
      | _, _ => none
  | .text s => IntText.read? s
  | _ => none

def text? : Value → Option String
  | .text s => some s
  | _ => none

def map? : Value → Option Bindings
  | .map entries => some entries
  | _ => none

/-- Reads a field that may be missing, in which case it has a standard value. -/
def readD {α : Type} (fields : Bindings) (name : String) (standard : α) (read : Value → Option α) :
    Option α :=
  match Assoc.get? name fields with
  | some value => read value
  | none => some standard

def read? {α : Type} (fields : Bindings) (name : String) (read : Value → Option α) : Option α :=
  (Assoc.get? name fields).bind read

def onlyNamed (names : List String) (fields : Bindings) : Bool :=
  fields.all fun (name, _) => names.contains name

/-- Whether fields stay the same under some changes, be it in other words. What is not changed is
the same even where it holds a number that is none. -/
def unchangedBy (fields changes : Bindings) : Bool :=
  fields.all fun (name, old) =>
    match Assoc.get? name changes with
    | none => true
    | some new => old.alike new

end Fields

namespace User

def fields (u : User) : Bindings := [("id", .text u.id), ("time_zone", .text u.zone)]

def ofFields? (given : Bindings) : Option User := do
  if !Fields.onlyNamed ["id", "time_zone"] given then none
  let id ← Fields.read? given "id" Fields.text?
  let zone ← Fields.readD given "time_zone" "UTC" Fields.text?
  checked? id zone

end User

namespace Variable

def fields (v : Variable) : Bindings :=
  [("name", .text v.name), ("value", v.value), ("updated_time", .int v.updated),
    ("updated_time_zone", .text v.zone)]

def ofFields? (given : Bindings) : Option Variable := do
  if !Fields.onlyNamed ["name", "value", "updated_time", "updated_time_zone"] given then none
  let name ← Fields.read? given "name" Fields.text?
  let value ← Fields.readD given "value" .null some
  let updated ← Fields.readD given "updated_time" 0 Fields.int?
  let zone ← Fields.readD given "updated_time_zone" "UTC" Fields.text?
  return ⟨name, value, updated, zone⟩

end Variable
end Parley
