import Parley.Assoc
import Parley.Store.Record

/-!
The variables of one user, in the order of their first writing, and the names of those who listen
to changes.
-/
namespace Parley

structure Store where
  user : User
  held : List (String × Variable)
  listeners : List String

/-- How a change is made: whether listeners hear of it, when it happens, the present unless said
otherwise, and where it comes from. -/
structure Origin where
  notify : Bool
  time : Option Instant
  source : ChangeSource

namespace Store

def ofVariables (user : User) (vs : List Variable) : Store :=
  ⟨user, Assoc.ofList (vs.map fun v => (v.name, v)), []⟩

def get? (s : Store) (name : String) : Option Variable := Assoc.get? name s.held

def value? (s : Store) (name : String) : Option Value := (s.get? name).map (·.value)

def contains (s : Store) (name : String) : Bool := Assoc.contains name s.held

def size (s : Store) : Nat := s.held.length

def names (s : Store) : List String := Assoc.keys s.held

/-- The values as they are now, apart from the store. -/
def snapshot (s : Store) : Bindings := s.held.map fun (name, v) => (name, v.value)

def put (s : Store) (v : Variable) : Store :=
  { s with held := Assoc.insert v.name v s.held }

def putAll (s : Store) (vs : List Variable) : Store := vs.foldl put s

def erase (s : Store) (name : String) : Store :=
  { s with held := Assoc.erase name s.held }

def clear (s : Store) : Store := { s with held := [] }

/-- The effect of a change on a copy of the variables. -/
def replay (held : List (String × Variable)) (c : Change) : List (String × Variable) :=
  match c.kind with
  | .put written => written.foldl (fun vs v => Assoc.insert v.name v vs) held
  | .remove names => names.foldl (fun vs name => Assoc.erase name vs) held
  | .clear => []

end Store
end Parley
