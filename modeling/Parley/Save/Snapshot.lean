import Parley.Hash.Base64
import Parley.Hash.Sha256
import Parley.Json.Printer
import Parley.Store.Basic
import Parley.Store.Fields
import Parley.Time.Calendar

/-!
Snapshots: stores as documents. A snapshot holds the user and the variables, in the order of their
names, as records, each a type and the fields of it, and a checksum of all the rest.
-/
namespace Parley

inductive SaveError where
  | invalidSnapshot
  | noChecksum
  | wrongChecksum
  | unknownType (type : String)
  | otherType (expected found : String)
  | invalidRecord (type : String)
  | unwritable (user : String)
  | unreadable (user : String)
  deriving DecidableEq

def SaveError.message : SaveError → String
  | invalidSnapshot => "Invalid variable snapshot"
  | noChecksum => "Variable snapshot has no checksum"
  | wrongChecksum => "Checksum validation failed"
  | unknownType type => "Unknown record type: " ++ type
  | otherType expected found => "Expected record of type " ++ expected ++ ", found: " ++ found
  | invalidRecord type => "Invalid " ++ type ++ " record"
  | unwritable user => "Can't save variables of user " ++ user
  | unreadable user => "Can't load variables of user " ++ user

namespace Value

mutual

/-- The value with null in place of infinities and of what is no number. -/
def withoutNonFinite : Value → Value
  | .float x => if x.isFinite then .float x else .null
  | .list items => .list (itemsWithoutNonFinite items)
  | .map entries => .map (entriesWithoutNonFinite entries)
  | other => other

def itemsWithoutNonFinite : List Value → List Value
  | [] => []
  | item :: rest => withoutNonFinite item :: itemsWithoutNonFinite rest

def entriesWithoutNonFinite : List (String × Value) → List (String × Value)
  | [] => []
  | (key, item) :: rest => (key, withoutNonFinite item) :: entriesWithoutNonFinite rest

end

end Value

/-- A record as it is stored. -/
structure StoredRecord where
  type : String
  data : Bindings

namespace StoredRecord

def ofUser (u : User) : StoredRecord := ⟨"User", u.fields⟩

/-- A variable is stored with null for each number that JSON does not know. -/
def ofVariable (v : Variable) : StoredRecord :=
  ⟨"Variable", { v with value := v.value.withoutNonFinite }.fields⟩

def toValue (r : StoredRecord) : Value := .map [("type", .text r.type), ("data", .map r.data)]

def ofValue? : Value → Option StoredRecord
  | .map entries => do
      if !Fields.onlyNamed ["type", "data"] entries then none
      let type ← Fields.read? entries "type" Fields.text?
      let data ← Fields.read? entries "data" Fields.map?
      if type.isEmpty then none else return ⟨type, data⟩
  | _ => none

def ofList? : Value → Option (List StoredRecord)
  | .list items => items.mapM ofValue?
  | _ => none

/-- The contents of a record that must be of a certain type. -/
def readAs {α : Type} (expected : String) (read : Bindings → Option α) (r : StoredRecord) :
    Except SaveError α :=
  if r.type ≠ "User" ∧ r.type ≠ "Variable" then .error (.unknownType r.type)
  else if r.type ≠ expected then .error (.otherType expected r.type)
  else match read r.data with
    | some a => .ok a
    | none => .error (.invalidRecord r.type)

def asUser (r : StoredRecord) : Except SaveError User := r.readAs "User" User.ofFields?

def asVariable (r : StoredRecord) : Except SaveError Variable :=
  r.readAs "Variable" Variable.ofFields?

end StoredRecord

/-- The parts of a document that has the form of a snapshot, and all its entries. -/
structure Snapshot where
  entries : List (List Rune × Json)
  user : StoredRecord
  records : List StoredRecord
  checksum : Option String

namespace Snapshot

def version : String := "1.0"

/-- The checksum of the entries of a document. It does not depend on their order, nor on that of
the entries within them. -/
def checksumOf (entries : List (List Rune × Json)) : String :=
  let text := Json.compact .ascii (Json.sorted (.map entries))
  Base64.encode (Sha256.hash text.toUTF8.toList)

def byName (a b : Variable) : Bool := decide (a.name < b.name ∨ a.name = b.name)

/-- The document of a store without the checksum. -/
def contents (s : Store) (now : Int) : Bindings :=
  let sorted := (s.held.map (·.2)).mergeSort byName
  [("version", .text version), ("saved_at", .text (universalText now)),
    ("user", (StoredRecord.ofUser s.user).toValue),
    ("variables", .list (sorted.map fun v => (StoredRecord.ofVariable v).toValue))]

def ofStore (s : Store) (now : Int) : Value :=
  let entries := contents s now
  .map (entries ++ [("checksum", .text (checksumOf (Json.ofEntries entries)))])

def ofJson? : Json → Option Snapshot
  | .map entries => do
      let fields := Json.toEntries entries
      if !Fields.onlyNamed ["version", "saved_at", "user", "variables", "checksum"] fields then none
      let _ ← Fields.read? fields "version" Fields.text?
      let _ ← Fields.readD fields "saved_at" "" Fields.text?
      let user ← Fields.read? fields "user" StoredRecord.ofValue?
      let records ← Fields.read? fields "variables" StoredRecord.ofList?
      let checksum ← Fields.readD fields "checksum" none fun v => (Fields.text? v).map some
      return ⟨entries, user, records, checksum⟩
  | _ => none

/-- Whether the checksum is there and right. -/
def verify (s : Snapshot) : Except SaveError Unit :=
  match s.checksum with
  | none => .error .noChecksum
  | some checksum =>
      if checksumOf (Assoc.erase (Json.runes "checksum") s.entries) = checksum then .ok ()
      else .error .wrongChecksum

def store (s : Snapshot) : Except SaveError Store := do
  let user ← s.user.asUser
  let vs ← s.records.mapM StoredRecord.asVariable
  return .ofVariables user vs

/-- The store that a document describes; its checksum is looked at only if asked for. -/
def read (document : Json) (verified : Bool) : Except SaveError Store := do
  match ofJson? document with
  | none => throw .invalidSnapshot
  | some s =>
      if verified then s.verify
      s.store

end Snapshot
end Parley
