import Parley.Assoc
import Parley.Library.File
import Parley.Library.Pattern

/-!
Libraries of dialogues. A library holds every script among the files in and below a folder, under
the path of its file without the extension; scripts at fault are left out and remembered.
-/
namespace Parley

/-- A file and the parts of its path below the folder of the library. -/
structure ScriptFile where
  path : List String
  bytes : ByteArray

namespace ScriptFile

def fileName (f : ScriptFile) : String := f.path.getLastD ""

def dialogueName (f : ScriptFile) : String :=
  String.intercalate "/" (f.path.dropLast ++ [Path.stemOf f.fileName])

def notAfter (a b : ScriptFile) : Bool := decide (a.path < b.path ∨ a.path = b.path)

end ScriptFile

/-- All files of a tree. -/
def ScriptFile.ofTree (t : FileTree) : List ScriptFile :=
  t.entries.filterMap fun (path, content) => content.map fun bytes => ⟨(Path.ofText path).parts, bytes⟩

structure Library where
  scripts : List (String × Dialogue)
  failures : List (String × FileError)

/-- What is told while a library is loaded. -/
inductive LoadEvent where
  | loaded (file : ScriptFile) (dialogue : Dialogue)
  | failed (file : ScriptFile) (error : FileError)
  | completed (loaded failed : Nat)

namespace Library

def empty : Library := ⟨[], []⟩

def add (l : Library) (f : ScriptFile) : Library × LoadEvent :=
  let name := f.dialogueName
  match Dialogue.ofBytes name f.bytes with
  | .ok d => ({ l with scripts := Assoc.insert name d l.scripts }, .loaded f d)
  | .error e => ({ l with failures := Assoc.insert name e l.failures }, .failed f e)

def addAll (l : Library) : List ScriptFile → Library × List LoadEvent
  | [] => (l, [.completed l.scripts.length l.failures.length])
  | f :: rest =>
      let (l, event) := l.add f
      let (l, events) := l.addAll rest
      (l, event :: events)

/-- The library of some files, of which those that a pattern chooses count, in the order of their
paths. -/
def load (pattern : FilePattern) (files : List ScriptFile) : Library × List LoadEvent :=
  empty.addAll ((files.filter (pattern.isMet ·.path)).mergeSort ScriptFile.notAfter)

def get? (l : Library) (name : String) : Option Dialogue := Assoc.get? name l.scripts

def contains (l : Library) (name : String) : Bool := Assoc.contains name l.scripts

def names (l : Library) : List String := sortedNames (Assoc.keys l.scripts)

end Library
end Parley
