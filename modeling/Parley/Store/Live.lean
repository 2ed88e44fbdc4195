import Parley.Expr.Eval
import Parley.Store.Basic

/-!
A store at work. Each change is told to all listeners, in the order in which they were added and
before the change counts as done; a listener may change the store in turn, which is told to all
before the next listener hears of the first change, or refuse, which ends the operation.
-/
namespace Parley

/-- What a listener does when it hears of a change. -/
inductive Reaction where
  | refuse
  | set (name : String) (value : Value) (origin : Origin)
  | remove (name : String) (origin : Origin)
  | attach (listener : String)
  | detach (listener : String)

/-- That a listener heard of a change, and the values at that time. -/
structure Call where
  listener : String
  change : Change
  snapshot : Bindings

/-- A store, the present time, the reactions that its listeners still have in store, and what they
have heard of. -/
structure LiveStore where
  store : Store
  now : Int
  reactions : List (String × List Reaction)
  calls : List Call

namespace LiveStore

def ofStore (store : Store) (now : Int) (reactions : List (String × List Reaction)) : LiveStore :=
  ⟨store, now, reactions, []⟩

/-- The present time of the user. -/
def present (s : LiveStore) : Instant := ⟨s.now, some s.store.user.zone⟩

def timeOf (s : LiveStore) (origin : Origin) : Instant := origin.time.getD s.present

def onStore (f : Store → Store) : Run LiveStore Unit :=
  modify fun s => { s with store := f s.store }

/-- Takes the next reaction of a listener. -/
def nextReaction (listener : String) : Run LiveStore (Option Reaction) := do
  let s ← get
  match Assoc.get? listener s.reactions with
  | some (reaction :: rest) =>
      set { s with reactions := Assoc.insert listener rest s.reactions }
      return some reaction
  | _ => return none

/-- Tells listeners of a change, one after the other. -/
def fanOut (react : Reaction → Run LiveStore Unit) (change : Change) :
    List String → Run LiveStore Unit
  | [] => pure ()
  | listener :: rest => do
      modify fun s => { s with calls := s.calls ++ [⟨listener, change, s.store.snapshot⟩] }
      if let some reaction ← nextReaction listener then react reaction
      fanOut react change rest

/-! Changes, with `tell` as the way to tell the listeners. -/

variable (tell : Change → Run LiveStore Unit)

def told (origin : Origin) (time : Instant) (kind : ChangeKind) : Run LiveStore Unit :=
  if origin.notify then tell ⟨kind, time, origin.source⟩ else pure ()

def setWith (name : String) (value : Value) (origin : Origin) : Run LiveStore Variable := do
  let time := (← get).timeOf origin
  let v := Variable.stamped name value time
  onStore (·.put v)
  told tell origin time (.put [v])
  return v

def removeWith (name : String) (origin : Origin) : Run LiveStore (Option Variable) := do
  let s ← get
  match s.store.get? name with
  | none => return none
  | some v =>
      onStore (·.erase name)
      told tell origin (s.timeOf origin) (.remove [name])
      return some v

def addAllWith (values : Bindings) (origin : Origin) : Run LiveStore (List Variable) := do
  let time := (← get).timeOf origin
  let added := values.map fun (name, value) => Variable.stamped name value time
  onStore (·.putAll added)
  told tell origin time (.put added)
  return added

def clearWith (origin : Origin) : Run LiveStore Unit := do
  let time := (← get).timeOf origin
  onStore Store.clear
  told tell origin time .clear

def attach (listener : String) : Run LiveStore Unit :=
  onStore fun s => { s with listeners := s.listeners ++ [listener] }

/-- Removes a listener once and tells whether it was there. -/
def detach (listener : String) : Run LiveStore Bool := do
  let there := (← get).store.listeners.contains listener
  onStore fun s => { s with listeners := s.listeners.erase listener }
  return there

def react : Reaction → Run LiveStore Unit
  | .refuse => throw .listener
  | .set name value origin => do
      let _ ← setWith tell name value origin
      return ()
  | .remove name origin => do
      let _ ← removeWith tell name origin
      return ()
  | .attach listener => attach listener
  | .detach listener => do
      let _ ← detach listener
      return ()

/-- Tells all listeners of a change. Every reaction is used up before it acts, so reactions are
nested no deeper than there are reactions left. -/
def notify : Nat → Change → Run LiveStore Unit
  | 0, change => do
      fanOut (fun _ => pure ()) change (← get).store.listeners
  | depth + 1, change => do
      fanOut (react (notify depth)) change (← get).store.listeners

def reactionsLeft (s : LiveStore) : Nat := (s.reactions.flatMap (·.2)).length

def announce (change : Change) : Run LiveStore Unit := do
  notify (← get).reactionsLeft change

def setValue (name : String) (value : Value) (origin : Origin) : Run LiveStore Variable :=
  setWith announce name value origin

/-- Removes a variable and gives it back, if it is there. -/
def remove (name : String) (origin : Origin) : Run LiveStore (Option Variable) :=
  removeWith announce name origin

/-- Writes several variables, of which the listeners hear as one change. -/
def addAll (values : Bindings) (origin : Origin) : Run LiveStore (List Variable) :=
  addAllWith announce values origin

def clear (origin : Origin) : Run LiveStore Unit := clearWith announce origin

/-- The variables of the store as those of a script; what the script writes goes to the store. -/
def scope (origin : Origin) : Scope LiveStore where
  read name s := s.store.value? name
  write name value := do
    let _ ← setValue name value origin
    return ()

end LiveStore
end Parley
