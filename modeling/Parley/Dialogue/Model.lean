import Parley.Body.Model
import Parley.Body.Printer

/-!
Nodes and dialogues. Titles of nodes are compared without regard to case.
-/
namespace Parley

structure Header where
  title : String
  speaker : Option String
  tags : List (String × String)
  deriving DecidableEq

structure Node where
  header : Header
  body : Body

structure Dialogue where
  name : String
  nodes : List Node

namespace Header

def tag (h : Header) (name standard : String) : String := (Assoc.get? name h.tags).getD standard

def tagLine (key value : String) : String := key ++ ": " ++ value

def toScript (h : Header) : String :=
  String.intercalate "\n"
    (tagLine "title" h.title :: (h.speaker.map (tagLine "speaker")).toList ++
      h.tags.map fun (key, value) => tagLine key value)

end Header

namespace Node

def title (n : Node) : String := n.header.title

def toScript (n : Node) : String :=
  n.header.toScript ++ "\n---\n" ++ n.body.toScript ++ "\n==="

end Node

namespace Dialogue

def node? (d : Dialogue) (id : String) : Option Node :=
  d.nodes.find? fun n => lower n.title == lower id

def hasNode (d : Dialogue) (id : String) : Bool := (d.node? id).isSome

/-- The node that a conversation starts with unless said otherwise. -/
def start? (d : Dialogue) : Option Node := d.node? "start"

def speakers (d : Dialogue) : List String := sortedNames (d.nodes.filterMap (·.header.speaker))

def reads (d : Dialogue) : List String := sortedNames (d.nodes.flatMap (·.body.reads))

def writes (d : Dialogue) : List String := sortedNames (d.nodes.flatMap (·.body.writes))

def otherDialogue? : Pointer → Option String
  | .internal _ => none
  | .external _ _ dialogue => some dialogue

/-- The other dialogues that replies lead to. -/
def references (d : Dialogue) : List String :=
  sortedNames (d.nodes.flatMap fun n => n.body.allPointers.filterMap otherDialogue?)

def namesText (label : String) (names : List String) : String :=
  label ++ " (" ++ natText names.length ++ "):\n" ++
    String.join (names.map fun name => "  - " ++ name ++ "\n")

/-- An account of a dialogue for a reader. -/
def summary (d : Dialogue) : String :=
  "Dialogue Name: " ++ d.name ++ "\nNumber of Nodes: " ++ natText d.nodes.length ++ "\n\n" ++
    namesText "Speakers present" d.speakers ++ namesText "Dialogues referenced" d.references ++
    namesText "Variables needed" d.reads ++ namesText "Variables written" d.writes

end Dialogue
end Parley
