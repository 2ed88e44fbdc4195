import Parley.Json.Parser
import Parley.Library.File
import Parley.Save.Snapshot

/-!
A folder of saves, one file for each user. The name of the file is made from the identifier of the
user, in which characters that are unsafe in file names become underscores.
-/
namespace Parley

inductive SaveEvent where
  | saved (user : String)
  | saveFailed (user : String)
  | loaded (user : String)
  | loadFailed (user : String)
  deriving DecidableEq

/-- Why something cannot be done with saves. -/
inductive SaveFailure where
  | error (e : SaveError)
  /-- A new user would have a time zone that is not known. -/
  | unknownZone
  /-- What stands in the place of the file is a folder. -/
  | folder
  /-- No file can have the name. -/
  | longName
  /-- A whole number has too many digits to be written. -/
  | longNumber
  deriving DecidableEq

/-- Whether all whole numbers in the record of a variable can be written. -/
def Variable.isWritable (v : Variable) : Bool := v.value.isWritable && isWritableInt v.updated

/-- The files by name, and the events so far. -/
structure SaveFolder where
  files : List (String × Entry)
  events : List SaveEvent

namespace SaveFolder

abbrev Action (α : Type) := ExceptT SaveFailure (StateM SaveFolder) α

def empty : SaveFolder := ⟨[], []⟩

def safeChar (c : Char) : Char := if isNodeNameChar c || c == '.' then c else '_'

def fileName (user : String) : String :=
  "variables_" ++ String.ofList (user.toList.map safeChar) ++ ".json"

/-- What stands under a name. No file has a name of more than 255 bytes. -/
def place? (f : SaveFolder) (name : String) : Option Entry :=
  if name.utf8ByteSize ≤ 255 then some ((Assoc.get? name f.files).getD .nothing) else none

def find (name : String) : Action Entry := do
  match (← get).place? name with
  | some entry => return entry
  | none => throw .longName

def entry (user : String) : Action Entry := find (fileName user)

def has (user : String) : Action Bool := do
  match ← entry user with
  | .nothing => return false
  | .folder | .file _ => return true

def tell (event : SaveEvent) : Action Unit :=
  modify fun f => { f with events := f.events ++ [event] }

/-- Puts something in the place of what stands under a name. No file takes the place of a folder. -/
def put (name : String) (entry : Entry) : Action Unit := do
  match ← find name, entry with
  | .folder, .file _ => throw .folder
  | _, _ => modify fun f => { f with files := Assoc.insert name entry f.files }

def snapshotText (s : Store) (now : Int) : String :=
  Json.indented .ascii 0 (Json.ofValue (Snapshot.ofStore s now))

/-- Writes the file of a store in place of an earlier one and gives the text of it. -/
def save (s : Store) (now : Int) : Action String := do
  let user := s.user.id
  if !s.held.all (·.2.isWritable) then throw .longNumber
  match (← get).place? (fileName user) with
  | none | some .folder =>
      tell (.saveFailed user)
      throw (.error (.unwritable user))
  | some .nothing | some (.file _) =>
      let text := snapshotText s now
      put (fileName user) (.file text.toUTF8)
      tell (.saved user)
      return text

/-- The store that the bytes of a file describe. -/
def readBytes (user : String) (bytes : ByteArray) (verified : Bool) : Except SaveError Store :=
  match (String.fromUTF8? bytes).map Json.parse with
  | none | some (.error _) => .error (.unreadable user)
  | some (.ok document) => Snapshot.read document verified

/-- The store that is saved for a user in some place, if there is one. -/
def readEntry (user : String) (verified : Bool) : Entry → Except SaveError (Option Store)
  | .nothing => .ok none
  | .folder => .error (.unreadable user)
  | .file bytes => (readBytes user bytes verified).map some

def load (user : String) (verified : Bool) : Action (Option Store) := do
  match readEntry user verified (← entry user) with
  | .error e =>
      tell (.loadFailed user)
      throw (.error e)
  | .ok none => return none
  | .ok (some store) =>
      tell (.loaded user)
      return some store

/-- Loads a store or starts one without variables, in a time zone for new users. -/
def loadOrCreate (user zone : String) (verified : Bool) : Action Store := do
  match ← load user verified with
  | some store => return store
  | none =>
      match User.checked? user zone with
      | some user => return .ofVariables user []
      | none => throw .unknownZone

/-- Whether there is a sound save of a user. -/
def isSound (user : String) : Action Bool := do
  match readEntry user true (← entry user) with
  | .ok (some _) => return true
  | _ => return false

/-- Deletes the save of a user and tells whether there was one. -/
def delete (user : String) : Action Bool := do
  match ← entry user with
  | .nothing => return false
  | .folder => throw .folder
  | .file _ =>
      modify fun f => { f with files := Assoc.erase (fileName user) f.files }
      return true

end SaveFolder
end Parley
