import Parley.Assoc
import Parley.Event.Basic

/-!
The bus that events are published on. An event goes to the handlers that are subscribed to its topic
when its dispatch begins, one after the other; what a handler publishes waits until the dispatch is
over. A handler lives as long as someone holds it: its owner, a subscription that is not weak, or a
dispatch that has not been left yet.
-/
namespace Parley

/-- A dispatch that has not been left. It holds the subscriptions to its topic, those that are added
included until the list of them is replaced by another, and the handler that it called last. -/
structure Dispatch where
  topic : Topic
  kept : List Subscription
  current : Bool
  handler : Option String

def Dispatch.holds (d : Dispatch) (handler : String) : Bool :=
  d.handler == some handler || d.kept.any (·.holds handler)

structure Bus where
  subscriptions : List Subscription
  pending : List Event
  /-- How many events have been published and how many subscriptions made. -/
  published : Nat
  subscribed : Nat
  /-- The handlers that their owners hold. -/
  owned : List String
  /-- What each handler does in its calls to come. -/
  scripts : List (String × List (List HandlerStep))
  dispatches : List Dispatch
  /-- Whether the event that was dispatched last has been consumed. -/
  consumed : Bool
  records : List BusRecord
  /-- All that has happened, from the start. -/
  history : List BusNotice

namespace Bus

abbrev Action (α : Type) := ExceptT BusError (StateM Bus) α

def ofHandlers (scripts : List (String × List (List HandlerStep))) : Bus :=
  ⟨[], [], 0, 0, Assoc.keys scripts, scripts, [], false, [], []⟩

def listeners (b : Bus) (topic : Topic) : List Subscription :=
  b.subscriptions.filter (·.topic == topic)

def isAlive (b : Bus) (handler : String) : Bool :=
  b.owned.contains handler || b.subscriptions.any (·.holds handler) ||
    b.dispatches.any (·.holds handler)

def record (b : Bus) (r : BusRecord) : Bus := { b with records := b.records ++ [r] }

def note (b : Bus) (n : BusNotice) : Bus := { b with history := b.history ++ [n] }

/-- Replaces the list of subscriptions to a topic by those that meet a condition. -/
def keep (b : Bus) (topic : Topic) (p : Subscription → Bool) : Bus :=
  { b with
    subscriptions := b.subscriptions.filter fun s => s.topic != topic || p s
    dispatches := b.dispatches.map fun d =>
      if d.topic = topic then { d with current := false } else d }

def subscribe (b : Bus) (handler : String) (topic : Topic) (priority : Int)
    (oneShot weak : Bool) : Bus :=
  let s : Subscription := ⟨b.subscribed, topic, handler, priority, oneShot, weak⟩
  { b.note (.subscribed s) with
    subscriptions := s.insert b.subscriptions
    subscribed := b.subscribed + 1
    dispatches := b.dispatches.map fun d =>
      if d.topic = topic && d.current then { d with kept := s.insert d.kept } else d }

def unsubscribe (b : Bus) (handler : String) (topic : Topic) : Bus :=
  let b := b.note (.unsubscribed handler topic)
  if (b.listeners topic).isEmpty then b else b.keep topic (·.handler != handler)

def clear (b : Bus) : Option Topic → Bus
  | some topic => (b.note (.cleared (some topic))).keep topic fun _ => false
  | none =>
      { b.note (.cleared none) with
        subscriptions := []
        dispatches := b.dispatches.map fun d => { d with current := false } }

/-- Puts an event behind those that wait to be dispatched. -/
def enqueue (b : Bus) (topic : Topic) (data : Bindings) : Bus :=
  let event : Event := ⟨b.published, topic, data⟩
  { b.note (.published event) with
    pending := b.pending ++ [event]
    published := b.published + 1 }

/-- Does something with a handler that its owner still holds. -/
def withOwned (handler : String) (f : Bus → Bus) : Action Unit := do
  if (← get).owned.contains handler then modify f else throw .unknownHandler

def perform : BusAction → Action Unit
  | .subscribe handler topic priority oneShot weak =>
      withOwned handler (·.subscribe handler topic priority oneShot weak)
  | .unsubscribe handler topic => withOwned handler (·.unsubscribe handler topic)
  | .publish topic data => modify (·.enqueue topic data)
  | .clear topic => modify (·.clear topic)
  | .release handler =>
      withOwned handler fun b => { b with owned := b.owned.erase handler }

def performStep (handler : String) (event : Event) : HandlerStep → Action Unit
  | .consume => modify fun b => { b.note (.consumed event) with consumed := true }
  | .fail => throw .failed
  | .read key =>
      match Assoc.get? key event.data with
      | some value => modify (·.record (.read handler value))
      | none => throw .unknownKey
  | .act action => perform action

def performSteps (handler : String) (event : Event) : List HandlerStep → Action Unit
  | [] => modify (·.record (.done handler))
  | step :: rest => do
      performStep handler event step
      performSteps handler event rest

/-- Takes what a handler does in its next call. -/
def nextScript (b : Bus) (handler : String) : List HandlerStep × Bus :=
  match Assoc.get? handler b.scripts with
  | some (steps :: rest) => (steps, { b with scripts := Assoc.insert handler rest b.scripts })
  | _ => ([], b)

/-- Calls the handler of a subscription. A handler that fails is left where it is. -/
def call (b : Bus) (s : Subscription) (event : Event) : Bus :=
  let (steps, b) := ((b.record (.called s event)).note (.called s event)).nextScript s.handler
  ((performSteps s.handler event steps).run.run b).2

/-- Notes the handler that the innermost dispatch has come to. -/
def visit (b : Bus) (handler : Option String) : Bus :=
  match b.dispatches with
  | d :: rest => { b with dispatches := { d with handler } :: rest }
  | [] => b

/-- Calls the handlers of some subscriptions until one consumes the event, and gives the numbers of
those subscriptions that are to be removed. -/
def deliver (b : Bus) (event : Event) : List Subscription → List Nat × Bus
  | [] => ([], b)
  | s :: rest =>
      if s.weak && !b.isAlive s.handler then
        let (stale, b) := deliver (b.visit none) event rest
        (s.number :: stale, b)
      else
        let b := (b.visit (some s.handler)).call s event
        let (stale, b) := if b.consumed then ([], b) else deliver b event rest
        (if s.oneShot then s.number :: stale else stale, b)

/-- Gives an event to those that are subscribed to its topic. -/
def serve (b : Bus) (event : Event) : Bus :=
  let listeners := b.listeners event.topic
  let b := { b with consumed := false }
  if listeners.isEmpty then b
  else
    let b := { b with dispatches := ⟨event.topic, listeners, true, none⟩ :: b.dispatches }
    let (stale, b) := (b.record (.dispatched event listeners)).deliver event listeners
    if stale.isEmpty then b else b.keep event.topic fun s => !stale.contains s.number

def dispatch (b : Bus) (event : Event) : Bus :=
  ((b.note (.opened event)).serve event).note (.closed event)

/-- Dispatches the events that wait, `fuel` of them at most. -/
def drain : Nat → Bus → Bus
  | 0, b => b
  | fuel + 1, b =>
      match b.pending with
      | [] => b
      | event :: rest => drain fuel (({ b with pending := rest } : Bus).dispatch event)

def stepsLeft (b : Bus) : Nat := (b.scripts.flatMap fun (_, calls) => calls.flatten).length

/-- Publishes an event, and then what has been published in turn, which is no more than there are
steps left in scripts. Tells whether the event has been consumed. -/
def publish (b : Bus) (topic : Topic) (data : Bindings) : Bool × Bus :=
  let b := drain 1 (b.enqueue topic data)
  (b.consumed, { drain (b.stepsLeft + b.pending.length) b with dispatches := [] })

/-- Does something with a bus that is at rest and tells, of an event, whether it was consumed. -/
def act (action : BusAction) : Action (Option Bool) := do
  match action with
  | .publish topic data =>
      let (consumed, b) := (← get).publish topic data
      set b
      return some consumed
  | other =>
      perform other
      return none

end Bus
end Parley
