import Parley.Assoc
import Parley.Path

/-!
Files and folders in memory.
-/
namespace Parley

/-- What stands at a place among files. -/
inductive Entry where
  | nothing
  | folder
  | file (bytes : ByteArray)

/-- Files with their contents, and folders, by path. A folder that has something in it need not be
listed. -/
structure FileTree where
  entries : List (String × Option ByteArray)

namespace FileTree

def empty : FileTree := ⟨[]⟩

def key (parts : List String) : String := String.intercalate "/" parts

def isBelow (folder path : String) : Bool := (folder ++ "/").isPrefixOf path

/-- Writes a file, or makes a folder where no content is given. -/
def put (t : FileTree) (path : Path) (content : Option ByteArray) : FileTree :=
  ⟨Assoc.insert (key path.parts) content t.entries⟩

/-- Deletes what stands at a path and all that is below it. -/
def delete (t : FileTree) (path : Path) : FileTree :=
  ⟨t.entries.filter fun (p, _) => p != key path.parts && !isBelow (key path.parts) p⟩

def entry (t : FileTree) (parts : List String) : Entry :=
  match Assoc.get? (key parts) t.entries with
  | some (some bytes) => .file bytes
  | some none => .folder
  | none => if parts.isEmpty || t.entries.any (isBelow (key parts) ·.1) then .folder else .nothing

end FileTree
end Parley
