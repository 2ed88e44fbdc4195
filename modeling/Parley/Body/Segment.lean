import Parley.Template

/-!
Runs of text and commands. Text that is added behind text is joined to it.
-/
namespace Parley

inductive Segment (κ : Type) where
  | text (t : Template)
  | command (c : κ)

namespace Segment

variable {κ : Type}

/-- Adds a segment at the end. -/
def push : List (Segment κ) → Segment κ → List (Segment κ)
  | [], s => [s]
  | [.text t], .text u => [.text (t ++ u)]
  | first :: rest, s => first :: push rest s

/-- Adds text at the end, unless it is empty. -/
def pushText (segments : List (Segment κ)) (t : Template) : List (Segment κ) :=
  if t.isEmpty then segments else push segments (.text t)

def pushCommand (segments : List (Segment κ)) (c : κ) : List (Segment κ) :=
  push segments (.command c)

def trimStart : List (Segment κ) → List (Segment κ)
  | .text t :: rest =>
      let trimmed := t.trimStart
      if trimmed.isEmpty then trimStart rest else .text trimmed :: rest
  | segments => segments

/-- The same as trimming the end, on segments in reverse order. -/
def trimEndReversed : List (Segment κ) → List (Segment κ)
  | .text t :: rest =>
      let trimmed := t.trimEnd
      if trimmed.isEmpty then trimEndReversed rest else .text trimmed :: rest
  | segments => segments

/-- The segments without blanks at both ends. -/
def trim (segments : List (Segment κ)) : List (Segment κ) :=
  (trimEndReversed (trimStart segments).reverse).reverse

def commands (segments : List (Segment κ)) : List κ :=
  segments.filterMap fun
    | .command c => some c
    | .text _ => none

/-- The text of all segments, the commands left out. -/
def shown (segments : List (Segment κ)) : String :=
  String.join (segments.map fun
    | .text t => t.shown
    | .command _ => "")

end Segment
end Parley
