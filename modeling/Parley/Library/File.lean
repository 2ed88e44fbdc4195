import Parley.Dialogue.Parser
import Parley.FileTree

/-!
Files that hold the scripts of dialogues, as text in UTF-8.
-/
namespace Parley

/-- Why a place gives no dialogue. -/
inductive FileError where
  | missing
  | folder
  /-- A file stands where the path needs a folder. -/
  | blocked
  /-- No name of a file has that many bytes. -/
  | longName
  /-- A zero stands in the path. -/
  | invalidPath
  | notText
  | script (name : String) (errors : List DialogueError)

namespace Dialogue

def ofBytes (name : String) (bytes : ByteArray) : Except FileError Dialogue :=
  match String.fromUTF8? bytes with
  | none => .error .notText
  | some text =>
      (ofText name (String.ofList (unifyBreaks text.toList))).mapError (.script name)

def ofEntry (name : String) : Entry → Except FileError Dialogue
  | .nothing => .error .missing
  | .folder => .error .folder
  | .file bytes => ofBytes name bytes

/-- Follows a path part by part from the folder at `place`. A name has 255 bytes at most. -/
def follow (t : FileTree) (name : String) (place : List String) :
    List String → Except FileError Dialogue
  | [] => ofEntry name (t.entry place)
  | part :: rest =>
      match t.entry place with
      | .nothing => .error .missing
      | .file _ => .error .blocked
      | .folder =>
          if 255 < part.utf8ByteSize then .error .longName
          else follow t name (if part = ".." then place.dropLast else place ++ [part]) rest

/-- The dialogue in the file at a path, named after the file unless said otherwise. -/
def ofPath (t : FileTree) (path : Path) (name : Option String) : Except FileError Dialogue :=
  if path.isValid then follow t (name.getD path.stem) [] path.parts else .error .invalidPath

end Dialogue

/-- What a check of a script prints and the code that it ends with. -/
structure Report where
  code : UInt32
  out : String
  err : String

/-- The report on a file: an account of the dialogue in it, or the errors in its script, of which a
fatal one is not reported. -/
def Report.ofReading : Except FileError Dialogue → Except FileError Report
  | .ok d => .ok ⟨0, d.summary ++ "\n", ""⟩
  | .error (.script name errors) =>
      if errors.any (·.isFatal) then .error (.script name errors)
      else .ok ⟨1, "", String.join (errors.map fun e => e.message ++ "\n")⟩
  | .error .missing | .error .folder | .error .blocked => .ok ⟨1, "", ""⟩
  | .error e => .error e

/-- The report on the file at a path, which is settled before it is followed. -/
def Report.ofPath (t : FileTree) (path : Path) : Except FileError Report :=
  let settled : Path := ⟨path.root, path.settled⟩
  if path.isValid then ofReading (Dialogue.ofPath t settled none) else .error .invalidPath

end Parley
