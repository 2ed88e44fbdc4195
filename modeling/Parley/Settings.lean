import Parley.Assoc
import Parley.Number.Numeral
import Parley.Path

/-!
Settings of the program. Each can be given by a variable of the environment, whose name follows a
prefix; a variable without text counts as not given.
-/
namespace Parley

structure Settings where
  scriptsPath : Path
  savesPath : Path
  zone : String
  seed : Option Int
  notify : Bool
  extension : String

namespace Settings

def lookup? (beginning : String) (environment : List (String × String)) (name : String) :
    Option String :=
  (Assoc.get? (beginning ++ name) environment).filter fun text => !text.isEmpty

/-- The words that switch something on, in any case. -/
def isYes (text : String) : Bool := ["1", "true", "yes"].contains (lower text)

/-- The settings of an environment, unless the seed in it is no whole number. -/
def ofEnvironment? (beginning : String) (environment : List (String × String)) :
    Option Settings := do
  let given := lookup? beginning environment
  let seed ← match given "RANDOM_SEED" with
    | some text => (Numeral.int? text).map some
    | none => some none
  return {
    scriptsPath := .ofText ((given "SCRIPTS_PATH").getD "dialogues")
    savesPath := .ofText ((given "SAVES_PATH").getD "saves")
    zone := (given "DEFAULT_TIME_ZONE").getD "UTC"
    seed
    notify := ((given "NOTIFY_LISTENERS").map isYes).getD true
    extension := (given "SCRIPT_EXTENSION").getD ".dlb" }

end Settings
end Parley
