import Parley.Conversation.Basic
import Parley.Library.Basic

/-!
The host of conversations. It knows dialogues, those that were added and those of a library, follows
pointers from one dialogue into another, and tells what happens in each conversation.
-/
namespace Parley

inductive Happening where
  | started
  | entered (node : String)
  | replied (reply : Int) (statement : String) (pointer : Pointer)
  | inputStored (values : Bindings)
  | ended

/-- What happens in the conversation of a number, which is on some dialogue. -/
structure TalkEvent where
  conversation : Nat
  dialogue : String
  happening : Happening

structure Host where
  dialogues : List (String × Dialogue)
  library : Library
  /-- The random numbers that every conversation starts with. -/
  random : RandomSource
  notify : Bool
  /-- All conversations so far, numbered from zero. -/
  conversations : List Conversation
  events : List TalkEvent

/-- A host and the variables of the user who is talking. -/
structure Scene where
  host : Host
  store : LiveStore

abbrev Hosting (α : Type) := ExceptT TalkError (StateM Scene) α

namespace Host

def ofDialogues (dialogues : List Dialogue) (library : Library) (random : RandomSource)
    (notify : Bool) : Host :=
  ⟨Assoc.ofList (dialogues.map fun d => (d.name, d)), library, random, notify, [], []⟩

def names (h : Host) : List String := sortedNames (Assoc.keys h.dialogues)

/-- A dialogue by name. One that comes from the library is known from then on. -/
def find? (h : Host) (name : String) : Option Dialogue × Host :=
  match Assoc.get? name h.dialogues with
  | some d => (some d, h)
  | none =>
      match h.library.get? name with
      | some d => (some d, { h with dialogues := Assoc.insert name d h.dialogues })
      | none => (none, h)

end Host

namespace Hosting

def onHost {α : Type} (f : Host → α × Host) : Hosting α := do
  let scene ← get
  let (a, host) := f scene.host
  set { scene with host }
  return a

def find (name : String) : Hosting Dialogue := do
  match ← onHost (·.find? name) with
  | some d => return d
  | none => throw (.execution (.noDialogue name))

/-- Does something in a conversation. What has happened before a failure stays. -/
def within {α : Type} (number : Nat) (action : Talking α) : Hosting α := do
  let scene ← get
  match scene.host.conversations[number]? with
  | none => throw .noConversation
  | some c =>
      let (result, talk) := action.run.run ⟨c, scene.store⟩
      let conversations := scene.host.conversations.set number talk.conversation
      set (⟨{ scene.host with conversations }, talk.store⟩ : Scene)
      match result with
      | .ok a => return a
      | .error e => throw e

def conversation (number : Nat) : Hosting Conversation := within number Talking.conversation

def publish (number : Nat) (happening : Happening) : Hosting Unit := do
  let c ← conversation number
  onHost fun h => ((), { h with events := h.events ++ [⟨number, c.dialogue.name, happening⟩] })

/-- Adds a conversation and gives its number. -/
def append (c : Conversation) : Hosting Nat :=
  onHost fun h => (h.conversations.length, { h with conversations := h.conversations ++ [c] })

/-- A conversation on a dialogue that has not been started. -/
def prepare (name : String) (notify : Option Bool) : Hosting Conversation := do
  let dialogue ← find name
  let host := (← get).host
  return .ofDialogue dialogue host.random (notify.getD host.notify)

/-- A conversation on a dialogue that has been started. -/
def launch (name : String) (node : Option String) (time : Option Instant) :
    Hosting Conversation := do
  let c ← prepare name none
  let scene ← get
  let (result, talk) := (Talking.start node time).run.run ⟨c, scene.store⟩
  set { scene with store := talk.store }
  match result with
  | .ok _ => return talk.conversation
  | .error e => throw e

/-- Adds a conversation that has been started and tells so. -/
def welcome (c : Conversation) : Hosting Nat := do
  let number ← append c
  publish number .started
  publish number (.entered ((c.node.map Node.title).getD ""))
  return number

def start (name : String) (node : Option String) (time : Option Instant) : Hosting Nat := do
  welcome (← launch name node time)

/-- Chooses a reply and goes on, in the conversation at hand or, where the reply leads into another
dialogue, in a new one, for which the old one ends once the new one has started. Gives the number of
the conversation that is under way from now on. -/
def select (number : Nat) (reply : Int) (time : Option Instant) : Hosting Nat := do
  let c ← conversation number
  let statement ← within number (.ofExcept (c.statement (← get).store.store reply))
  let pointer ← within number (Talking.resolveReply reply time)
  publish number (.replied reply statement pointer)
  match pointer with
  | .external _ node dialogue =>
      let following ← launch dialogue (some node) time
      within number Talking.finish
      publish number .ended
      welcome following
  | .internal _ =>
      match ← within number (Talking.advance pointer time) with
      | none => publish number .ended
      | some node => publish number (.entered node.title)
      return number

def storeInput (number : Nat) (values : Bindings) (time : Option Instant) : Hosting Unit := do
  within number (Talking.storeInput values time)
  publish number (.inputStored values)

end Hosting
end Parley
