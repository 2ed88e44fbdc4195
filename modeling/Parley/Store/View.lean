import Parley.Store.Live

/-!
A store seen as a map of names to values. Every operation goes to the store at once.
-/
namespace Parley.LiveStore.View

def get (name : String) : Run LiveStore Value := do
  match (← MonadState.get).store.value? name with
  | some value => return value
  | none => throw .missing

def getD (name : String) (standard : Value) : Run LiveStore Value := do
  return ((← MonadState.get).store.value? name).getD standard

def insert (origin : Origin) (name : String) (value : Value) : Run LiveStore Unit := do
  let _ ← setValue name value origin
  return ()

def erase (origin : Origin) (name : String) : Run LiveStore Unit := do
  match ← remove name origin with
  | some _ => return ()
  | none => throw .missing

/-- Removes a name and gives its value, or a standard value if there is none to remove. -/
def pop (origin : Origin) (name : String) (standard : Option Value) : Run LiveStore Value := do
  match (← MonadState.get).store.value? name, standard with
  | some value, _ =>
      erase origin name
      return value
  | none, some value => return value
  | none, none => throw .missing

/-- Removes the first name. -/
def popFirst (origin : Origin) : Run LiveStore (String × Value) := do
  match (← MonadState.get).store.snapshot with
  | [] => throw .missing
  | (name, value) :: _ =>
      erase origin name
      return (name, value)

/-- The value of a name, which is written first if there is none. -/
def getOrInsert (origin : Origin) (name : String) (value : Value) : Run LiveStore Value := do
  match (← MonadState.get).store.value? name with
  | some found => return found
  | none =>
      insert origin name value
      return value

/-- Writes the values of a map and those given beside it. -/
def update (origin : Origin) (values beside : Bindings) : Run LiveStore Unit := do
  let _ ← addAll (Assoc.insertAll (Assoc.ofList values) beside) origin
  return ()

end Parley.LiveStore.View
