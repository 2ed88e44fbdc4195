import Parley.Body.Run
import Parley.Dialogue.Model
import Parley.Store.Live

/-!
Conversations: dialogues under way, node by node, on the variables of a user. The node that was last
shown stays in place until another one has run without failure, so that a turn that fails can be
tried again.
-/
namespace Parley

/-- Someone asked for what does not exist. -/
inductive ExecutionError where
  | noDialogue (name : String)
  | noNode (id dialogue : String)
  | noReply (id : Int) (dialogue : String) (node : Option String)
  | otherDialogue (pointer dialogue : String)
  deriving DecidableEq

def ExecutionError.message : ExecutionError → String
  | noDialogue name => "Dialogue \"" ++ name ++ "\" not found"
  | noNode id dialogue => "Node \"" ++ id ++ "\" not found in dialogue \"" ++ dialogue ++ "\""
  | noReply id dialogue node =>
      "Reply with ID " ++ intText id ++ " not found in dialogue \"" ++ dialogue ++ "\", node \"" ++
        node.getD "None" ++ "\""
  | otherDialogue pointer dialogue =>
      "Pointer " ++ pointer ++ " leads to dialogue \"" ++ dialogue ++
        "\", follow it with DialogueManager"

inductive TalkError where
  | failure (f : Failure)
  | execution (e : ExecutionError)
  /-- There is no conversation of that number. -/
  | noConversation
  deriving DecidableEq

inductive Status where
  | notStarted
  | active
  | ended
  deriving DecidableEq

structure Conversation where
  dialogue : Dialogue
  random : RandomSource
  /-- Whether those who listen to the store hear of what the script writes. -/
  notify : Bool
  status : Status
  /-- The node that was last shown, resolved. -/
  node : Option Node

/-- A conversation and the variables that it is held on. -/
structure Talk where
  conversation : Conversation
  store : LiveStore

abbrev Talking (α : Type) := ExceptT TalkError (StateM Talk) α

namespace Conversation

def ofDialogue (dialogue : Dialogue) (random : RandomSource) (notify : Bool) : Conversation :=
  ⟨dialogue, random, notify, .notStarted, none⟩

/-- How the script makes changes. -/
def scriptOrigin (c : Conversation) (time : Option Instant) : Origin := ⟨c.notify, time, .script⟩

def liveScope (c : Conversation) (time : Option Instant) : Scope LiveStore :=
  LiveStore.scope (c.scriptOrigin time)

def findNode (c : Conversation) (id : String) : Except TalkError Node :=
  match c.dialogue.node? id with
  | some node => .ok node
  | none =>
      let asked := if id.isEmpty then "start" else id
      .error (.execution (.noNode asked c.dialogue.name))

/-- A reply of the node that was last shown. -/
def findReply (c : Conversation) (id : Int) : Except TalkError Reply :=
  match c.node.bind (·.body.findReply? id) with
  | some reply => .ok reply
  | none => .error (.execution (.noReply id c.dialogue.name (c.node.map Node.title)))

def segmentStatement (lookup : String → Option Value) : Segment Input → Except Failure String
  | .text t => .ok t.shown
  | .command i => i.answer lookup

/-- What the user says with a reply, the answers to its inputs filled in. -/
def statement (c : Conversation) (store : Store) (id : Int) : Except TalkError String := do
  let reply ← c.findReply id
  match reply.statement with
  | none => return "AUTOFORWARD"
  | some segments =>
      let parts ← (segments.mapM (segmentStatement store.value?)).mapError .failure
      return String.join parts

end Conversation

/-- A node as it comes out of a run over some variables, without the blanks around it. -/
def Node.run {σ : Type} (n : Node) (scope : Scope σ) (vars : σ) (random : RandomSource) :
    Except Failure Node × σ × RandomSource :=
  let (result, stage) := n.body.runFresh scope true vars random
  (result.map fun () => ⟨n.header, stage.output⟩, stage.vars, stage.random)

namespace Talking

def ofExcept {α : Type} : Except TalkError α → Talking α
  | .ok a => pure a
  | .error e => throw e

def ofResult {α : Type} (result : Except Failure α) : Talking α :=
  ofExcept (result.mapError .failure)

def conversation : Talking Conversation := do return (← get).conversation

def modifyConversation (f : Conversation → Conversation) : Talking Unit :=
  modify fun talk => { talk with conversation := f talk.conversation }

def onStore {α : Type} (action : Run LiveStore α) : Talking α := do
  let talk ← get
  let (result, store) := action.run.run talk.store
  set { talk with store }
  ofResult result

/-- Runs a node on the variables themselves. -/
def execute (n : Node) (time : Option Instant) : Talking Node := do
  let ⟨c, store⟩ ← get
  let (result, store, random) := n.run (c.liveScope time) store c.random
  set (⟨{ c with random }, store⟩ : Talk)
  ofResult result

/-- Runs a node on a copy of the variables. -/
def executeApart (n : Node) : Talking Node := do
  let ⟨c, store⟩ ← get
  let (result, _, random) := n.run Scope.plain store.store.snapshot c.random
  set (⟨{ c with random }, store⟩ : Talk)
  ofResult result

/-- Runs a node and shows it. -/
def present (n : Node) (time : Option Instant) : Talking Node := do
  let node ← execute n time
  modifyConversation fun c => { c with node := some node, status := .active }
  return node

/-- Starts the conversation, at the start node unless another one is named. -/
def start (node : Option String) (time : Option Instant) : Talking Node := do
  let node ← ofExcept ((← conversation).findNode (node.getD "start"))
  present node time

def runReplyCommands {σ : Type} (scope : Scope σ) : List ReplyCommand → Run σ Unit
  | [] => pure ()
  | .set s :: rest => do
      let _ ← s.expr.eval scope
      runReplyCommands scope rest
  | .action _ :: rest => runReplyCommands scope rest

/-- Runs the assignments of a reply and tells where it leads. -/
def resolveReply (id : Int) (time : Option Instant) : Talking Pointer := do
  let c ← conversation
  let reply ← ofExcept (c.findReply id)
  onStore (runReplyCommands (c.liveScope time) reply.commands)
  return reply.pointer

def finish : Talking Unit :=
  modifyConversation fun c => { c with node := none, status := .ended }

/-- Goes on to the node that a pointer names. The conversation ends at the end, and where there is
no such node. -/
def advance (pointer : Pointer) (time : Option Instant) : Talking (Option Node) := do
  match pointer with
  | .external _ _ dialogue => throw (.execution (.otherDialogue pointer.toScript dialogue))
  | .internal id =>
      let c ← conversation
      let target := if pointer.isEnd then none else c.dialogue.node? id
      match target with
      | none =>
          finish
          return none
      | some node =>
          let node ← present node time
          return some node

/-- Stores what the user has entered in the inputs of a reply. -/
def storeInput (values : Bindings) (time : Option Instant) : Talking Unit := do
  let c ← conversation
  let _ ← onStore (LiveStore.addAll values ⟨c.notify, time, .inputReply⟩)
  return ()

end Talking
end Parley
