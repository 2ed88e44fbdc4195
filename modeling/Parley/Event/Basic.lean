import Parley.Value.Basic

/-!
Events, those who subscribe to them, and what handlers of events do.
-/
namespace Parley

/-- What events are about: dialogues under way and scripts being loaded. -/
inductive Topic where
  | dialogueStarted
  | nodeEntered
  | replySelected
  | replyInputStored
  | dialogueEnded
  | scriptLoaded
  | scriptFailed
  | loadCompleted
  deriving DecidableEq

namespace Topic

def name : Topic → String
  | dialogueStarted => "DIALOGUE_STARTED"
  | nodeEntered => "NODE_ENTERED"
  | replySelected => "REPLY_SELECTED"
  | replyInputStored => "REPLY_INPUT_STORED"
  | dialogueEnded => "DIALOGUE_ENDED"
  | scriptLoaded => "SCRIPT_LOADED"
  | scriptFailed => "SCRIPT_FAILED"
  | loadCompleted => "LOAD_COMPLETED"

def all : List Topic :=
  [dialogueStarted, nodeEntered, replySelected, replyInputStored, dialogueEnded, scriptLoaded,
    scriptFailed, loadCompleted]

def ofName? (s : String) : Option Topic := all.find? (·.name == s)

end Topic

/-- An event; events are numbered in the order in which they are published. -/
structure Event where
  number : Nat
  topic : Topic
  data : Bindings

/-- A handler subscribed to a topic; subscriptions are numbered in the order in which they are
made. A weak one does not keep its handler alive. -/
structure Subscription where
  number : Nat
  topic : Topic
  handler : String
  priority : Int
  oneShot : Bool
  weak : Bool
  deriving DecidableEq

namespace Subscription

/-- Puts a subscription behind those of the same or a higher priority. -/
def insert (s : Subscription) : List Subscription → List Subscription
  | [] => [s]
  | t :: rest => if t.priority < s.priority then s :: t :: rest else t :: insert s rest

def holds (s : Subscription) (handler : String) : Bool := !s.weak && s.handler == handler

end Subscription

/-- What can be done with a bus. -/
inductive BusAction where
  | subscribe (handler : String) (topic : Topic) (priority : Int) (oneShot weak : Bool)
  | unsubscribe (handler : String) (topic : Topic)
  | publish (topic : Topic) (data : Bindings)
  /-- Removes the subscriptions to a topic, or all of them. -/
  | clear (topic : Option Topic)
  /-- The owner of a handler lets go of it. -/
  | release (handler : String)

inductive HandlerStep where
  /-- Keeps the event from the handlers that have not been called yet. -/
  | consume
  | fail
  | read (key : String)
  | act (action : BusAction)

/-- Why a handler stops before its end, or an action is not done. -/
inductive BusError where
  | failed
  | unknownKey
  | unknownHandler
  deriving DecidableEq

inductive BusRecord where
  /-- The dispatch of an event to some subscriptions. -/
  | dispatched (event : Event) (listeners : List Subscription)
  | called (s : Subscription) (event : Event)
  | read (handler : String) (value : Value)
  | done (handler : String)

/-- What is noted of a bus. Behind the call of a subscription stands what its handler did, and then
the next call or the end of the dispatch. -/
inductive BusNotice where
  | subscribed (s : Subscription)
  | unsubscribed (handler : String) (topic : Topic)
  | cleared (topic : Option Topic)
  | published (event : Event)
  /-- The dispatch of an event begins. -/
  | opened (event : Event)
  | called (s : Subscription) (event : Event)
  | consumed (event : Event)
  /-- The dispatch of an event is over. -/
  | closed (event : Event)

end Parley
