import Parley.Body.Error
import Parley.Text.Name
import Parley.Value.Order

/-!
Where a reply leads: to a node of the same dialogue, to its end, or to a node of another dialogue,
whose name is found from the folder of the dialogue that refers to it.
-/
namespace Parley

def joinPath (parts : List (List Char)) : String :=
  String.ofList (List.intercalate ['/'] parts)

/-- Follows the folders of a reference from the folders of its origin. -/
def climb : List (List Char) → List (List Char) → Except PathDefect (List (List Char))
  | path, [] => .ok path
  | path, folder :: rest =>
      if folder = ['.', '.'] then
        if path.isEmpty then .error .aboveRoot else climb path.dropLast rest
      else if folder = [] ∨ folder = ['.'] then climb path rest
      else climb (path ++ [folder]) rest

/-- The name of the dialogue that a reference in another dialogue means. A reference that starts
with a point and a slash is taken from the root, as it stands. -/
def resolveDialogue (origin reference : String) : Except PathDefect String :=
  match reference.toList with
  | '.' :: '/' :: name => if name.isEmpty then .error .empty else .ok (String.ofList name)
  | written => do
      let target := match written with
        | '/' :: rest => rest
        | other => other
      let parts := splitChars '/' target
      let path ← climb (splitChars '/' origin.toList).dropLast parts.dropLast
      let name := parts.getLastD []
      if name.isEmpty then .error .empty else .ok (joinPath (path ++ [name]))

/-- A reply's target. A reference to another dialogue keeps the name of that dialogue, found when
the pointer is made. -/
inductive Pointer where
  | internal (node : String)
  | external (reference node dialogue : String)
  deriving DecidableEq

namespace Pointer

def isEndId (node : String) : Bool := lower node == "end"

def isEnd : Pointer → Bool
  | internal node => isEndId node
  | external .. => false

def toScript : Pointer → String
  | internal node => node
  | external reference node _ => reference ++ "." ++ node

/-- Whether two pointers lead to the same node; how a dialogue is referred to does not count. -/
def same : Pointer → Pointer → Bool
  | internal a, internal b => a == b
  | external _ a d, external _ b e => a == b && d == e
  | _, _ => false

/-- Internal pointers come first, external ones in the order of their dialogues. -/
def order : Pointer → Pointer → Ordering
  | internal a, internal b => compareText a b
  | internal _, external .. => .lt
  | external .., internal _ => .gt
  | external _ a d, external _ b e => (compareText d e).then (compareText a b)

/-- The pointers of a list in order, of those that lead to the same node the first. -/
def distinct (pointers : List Pointer) : List Pointer :=
  let kept := pointers.foldl (fun kept p => if kept.any p.same then kept else kept ++ [p]) []
  kept.mergeSort fun a b => a.order b != .gt

/-- The part of a reference that names a folder. -/
def isFolder (part : List Char) : Bool :=
  part = ['.', '.'] || part = ['.'] || isNodeName part

/-- A reference to a node of another dialogue, cut before the last point. -/
def external? (written : List Char) : Option (List Char × List Char) :=
  let target := match written with
    | '/' :: rest => rest
    | other => other
  let parts := splitChars '/' target
  match splitChars '.' (parts.getLastD []) with
  | [name, node] =>
      if parts.dropLast.all isFolder && isNodeName name && isNodeName node then
        some (written.take (written.length - node.length - 1), node)
      else none
  | _ => none

/-- The pointer that a text writes in a dialogue. -/
def ofText (dialogue text : String) : Except PointerDefect Pointer :=
  let written := text.toList
  if isNodeName written then .ok (internal text)
  else match external? written with
    | none => .error (.malformed text)
    | some (reference, node) =>
        let reference := String.ofList reference
        match resolveDialogue dialogue reference with
        | .ok target => .ok (external reference (String.ofList node) target)
        | .error defect => .error (.path defect)

end Pointer
end Parley
