import Parley.Text.Name

/-!
Paths as they are written. Slashes separate the parts of a path; empty parts and single points do
not count.
-/
namespace Parley

/-- The slashes that a path starts with, which make it absolute, and its parts. -/
structure Path where
  root : String
  parts : List String
  deriving DecidableEq

namespace Path

/-- Two slashes, no fewer and no more, are a root of their own. -/
def rootOf (cs : List Char) : String :=
  match (cs.takeWhile (· == '/')).length with
  | 0 => ""
  | 2 => "//"
  | _ => "/"

def ofText (s : String) : Path :=
  let parts := (splitChars '/' s.toList).filter fun part => part != [] && part != ['.']
  ⟨rootOf s.toList, parts.map String.ofList⟩

def text (p : Path) : String :=
  if p.root.isEmpty && p.parts.isEmpty then "." else p.root ++ String.intercalate "/" p.parts

/-- Whether a path can be that of a file: no part has a zero in it. -/
def isValid (p : Path) : Bool := p.parts.all fun part => !part.toList.contains '\x00'

/-- The parts that are left when every `..` has undone the part before it. -/
def settled (p : Path) : List String :=
  p.parts.foldl (fun done part => if part = ".." then done.dropLast else done ++ [part]) []

/-- A file name up to its last point, or all of it if that point is the first or the last
character. -/
def stemOf (name : String) : String :=
  let cs := name.toList
  let ending := cs.reverse.takeWhile (· != '.')
  let stem := cs.take (cs.length - ending.length - 1)
  if ending.isEmpty || stem.isEmpty then name else String.ofList stem

def stem (p : Path) : String := stemOf (p.parts.getLastD "")

end Path
end Parley
