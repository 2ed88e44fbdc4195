import Parley.Time.Instant
import Parley.Value.Basic

/-!
Users, variables and the changes that a store tells its listeners about.
-/
namespace Parley

structure User where
  id : String
  zone : String
  deriving DecidableEq

/-- The user with an identifier, if the time zone is known. -/
def User.checked? (id zone : String) : Option User :=
  if isZoneName zone then some ⟨id, zone⟩ else none

/-- The value of a variable and when it was written. -/
structure Variable where
  name : String
  value : Value
  updated : Int
  zone : String

def Variable.stamped (name : String) (value : Value) (time : Instant) : Variable :=
  ⟨name, value, time.millis, time.zoneName⟩

/-- The part of the program that a change comes from. -/
inductive ChangeSource where
  | unknown
  | script
  | inputReply
  | webService
  | externalVariableService
  deriving DecidableEq

namespace ChangeSource

def name : ChangeSource → String
  | unknown => "unknown"
  | script => "script"
  | inputReply => "input-reply"
  | webService => "web-service"
  | externalVariableService => "external-variable-service"

def all : List ChangeSource := [unknown, script, inputReply, webService, externalVariableService]

def ofName? (s : String) : Option ChangeSource := all.find? (·.name == s)

end ChangeSource

inductive ChangeKind where
  | put (written : List Variable)
  | remove (names : List String)
  | clear

structure Change where
  kind : ChangeKind
  time : Instant
  source : ChangeSource

end Parley
