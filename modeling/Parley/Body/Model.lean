import Parley.Body.Input
import Parley.Body.Segment
import Parley.Expr.Printer
import Parley.Number.Arithmetic
import Parley.Pointer

/-!
Bodies: what a node says, does and offers. A body is a run of text and commands and the replies
behind it; the clauses of a command have bodies of their own.
-/
namespace Parley

inductive ActionType where
  | image
  | video
  | link
  | generic
  deriving DecidableEq

def ActionType.name : ActionType → String
  | .image => "image"
  | .video => "video"
  | .link => "link"
  | .generic => "generic"

/-- Something that the client does. -/
structure Action where
  type : ActionType
  value : Template
  parameters : List (String × Template)
  deriving DecidableEq

structure Assignment where
  target : String
  value : Expr

/-- What happens when a reply is chosen. -/
inductive ReplyCommand where
  | action (a : Action)
  | set (s : Assignment)

/-- A choice of the user. A reply without a statement is taken without asking. -/
structure Reply where
  id : Nat
  statement : Option (List (Segment Input))
  pointer : Pointer
  commands : List ReplyCommand

mutual

inductive Command where
  | action (a : Action)
  | set (s : Assignment)
  | choice (clauses : List IfClause) (otherwise : Option Body)
  | random (clauses : List RandomClause)
  | input (i : Input)

structure IfClause where
  condition : Expr
  body : Body

structure RandomClause where
  weight : Number
  body : Body

structure Body where
  segments : List (Segment Command)
  replies : List Reply

end

namespace Action

def reads (a : Action) : List String :=
  a.value.reads ++ a.parameters.flatMap (·.2.reads)

/-- An action with its texts settled. -/
def resolve (a : Action) (lookup : String → Option Value) : Except Failure Action := do
  let value ← a.value.resolve lookup
  let parameters ← a.parameters.mapM fun (name, t) => return (name, ← t.resolve lookup)
  return { a with value, parameters }

end Action

namespace Assignment

def expr (s : Assignment) : Expr := .assign s.target s.value

def reads (s : Assignment) : List String := s.value.names

end Assignment

namespace ReplyCommand

def reads : ReplyCommand → List String
  | action a => a.reads
  | set s => s.reads

def writes : ReplyCommand → List String
  | action _ => []
  | set s => [s.target]

end ReplyCommand

/-- The names that something with segments is concerned with: `text` and `command` tell which. -/
def Segment.names {κ : Type} (text : Template → List String) (command : κ → List String) :
    List (Segment κ) → List String
  | [] => []
  | .text t :: rest => text t ++ names text command rest
  | .command c :: rest => command c ++ names text command rest

namespace Reply

def isAutoforward (r : Reply) : Bool := r.statement.isNone

def ends (r : Reply) : Bool := r.pointer.isEnd

def reads (r : Reply) : List String :=
  Segment.names Template.reads Input.reads (r.statement.getD []) ++ r.commands.flatMap (·.reads)

def writes (r : Reply) : List String :=
  Segment.names (fun _ => []) Input.writes (r.statement.getD []) ++ r.commands.flatMap (·.writes)

end Reply

mutual

/-- The variables that a command reads. -/
def Command.reads : Command → List String
  | .action a => a.reads
  | .set s => s.reads
  | .choice clauses otherwise => readsOfClauses clauses ++ readsOfOptional otherwise
  | .random clauses => readsOfWeighted clauses
  | .input i => i.reads

def readsOfClauses : List IfClause → List String
  | [] => []
  | ⟨condition, body⟩ :: rest => condition.names ++ body.reads ++ readsOfClauses rest

def readsOfWeighted : List RandomClause → List String
  | [] => []
  | ⟨_, body⟩ :: rest => body.reads ++ readsOfWeighted rest

def readsOfOptional : Option Body → List String
  | none => []
  | some body => body.reads

def readsOfSegments : List (Segment Command) → List String
  | [] => []
  | .text t :: rest => t.reads ++ readsOfSegments rest
  | .command c :: rest => c.reads ++ readsOfSegments rest

/-- The variables that a body reads. -/
def Body.reads : Body → List String
  | ⟨segments, replies⟩ => readsOfSegments segments ++ replies.flatMap (·.reads)

end

mutual

/-- The variables that a command writes. -/
def Command.writes : Command → List String
  | .action _ => []
  | .set s => [s.target]
  | .choice clauses otherwise => writesOfClauses clauses ++ writesOfOptional otherwise
  | .random clauses => writesOfWeighted clauses
  | .input i => i.writes

def writesOfClauses : List IfClause → List String
  | [] => []
  | ⟨_, body⟩ :: rest => body.writes ++ writesOfClauses rest

def writesOfWeighted : List RandomClause → List String
  | [] => []
  | ⟨_, body⟩ :: rest => body.writes ++ writesOfWeighted rest

def writesOfOptional : Option Body → List String
  | none => []
  | some body => body.writes

def writesOfSegments : List (Segment Command) → List String
  | [] => []
  | .text _ :: rest => writesOfSegments rest
  | .command c :: rest => c.writes ++ writesOfSegments rest

/-- The variables that a body writes. -/
def Body.writes : Body → List String
  | ⟨segments, replies⟩ => writesOfSegments segments ++ replies.flatMap (·.writes)

end

mutual

/-- All replies of a command, at every depth, in the order of the script. -/
def Command.replies : Command → List Reply
  | .choice clauses otherwise => repliesOfClauses clauses ++ repliesOfOptional otherwise
  | .random clauses => repliesOfWeighted clauses
  | .action _ | .set _ | .input _ => []

def repliesOfClauses : List IfClause → List Reply
  | [] => []
  | ⟨_, body⟩ :: rest => body.nested ++ repliesOfClauses rest

def repliesOfWeighted : List RandomClause → List Reply
  | [] => []
  | ⟨_, body⟩ :: rest => body.nested ++ repliesOfWeighted rest

def repliesOfOptional : Option Body → List Reply
  | none => []
  | some body => body.nested

def repliesOfSegments : List (Segment Command) → List Reply
  | [] => []
  | .text _ :: rest => repliesOfSegments rest
  | .command c :: rest => c.replies ++ repliesOfSegments rest

/-- All replies of a body, at every depth: its own in front of those of its commands. -/
def Body.nested : Body → List Reply
  | ⟨segments, replies⟩ => replies ++ repliesOfSegments segments

end

mutual

/-- The pointers of all replies of a command. -/
def Command.pointers : Command → List Pointer
  | .choice clauses otherwise => pointersOfClauses clauses ++ pointersOfOptional otherwise
  | .random clauses => pointersOfWeighted clauses
  | .action _ | .set _ | .input _ => []

def pointersOfClauses : List IfClause → List Pointer
  | [] => []
  | ⟨_, body⟩ :: rest => body.allPointers ++ pointersOfClauses rest

def pointersOfWeighted : List RandomClause → List Pointer
  | [] => []
  | ⟨_, body⟩ :: rest => body.allPointers ++ pointersOfWeighted rest

def pointersOfOptional : Option Body → List Pointer
  | none => []
  | some body => body.allPointers

def pointersOfSegments : List (Segment Command) → List Pointer
  | [] => []
  | .text _ :: rest => pointersOfSegments rest
  | .command c :: rest => c.pointers ++ pointersOfSegments rest

/-- The pointers of all replies of a body, those of its commands in front of its own. -/
def Body.allPointers : Body → List Pointer
  | ⟨segments, replies⟩ => pointersOfSegments segments ++ replies.map (·.pointer)

end

namespace Body

def empty : Body := ⟨[], []⟩

instance : Inhabited Body := ⟨empty⟩

def isEmpty (b : Body) : Bool := b.segments.isEmpty && b.replies.isEmpty

def addText (b : Body) (t : Template) : Body := { b with segments := Segment.pushText b.segments t }

def addSegment (b : Body) (s : Segment Command) : Body :=
  { b with segments := Segment.push b.segments s }

def addCommand (b : Body) (c : Command) : Body := b.addSegment (.command c)

def addReply (b : Body) (r : Reply) : Body := { b with replies := b.replies ++ [r] }

def trim (b : Body) : Body := { b with segments := Segment.trim b.segments }

def hasAutoforward (b : Body) : Bool := b.replies.any Reply.isAutoforward

/-- The reply with a number, here or in a clause at any depth. -/
def findReply? (b : Body) (id : Int) : Option Reply := b.nested.find? fun r => (r.id : Int) == id

/-- Where a body can lead. -/
def pointers (b : Body) : List Pointer := Pointer.distinct b.allPointers

/-- The text of a resolved body. -/
def text (b : Body) : String := Segment.shown b.segments

end Body
end Parley
