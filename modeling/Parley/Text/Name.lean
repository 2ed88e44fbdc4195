/-!
The alphabets of names, and lower case as it is used to compare names.
-/
namespace Parley

def isNameStart (c : Char) : Bool :=
  c == '_' || ('a' ≤ c && c ≤ 'z') || ('A' ≤ c && c ≤ 'Z')

def isNameChar (c : Char) : Bool := isNameStart c || ('0' ≤ c && c ≤ '9')

/-- A name of a variable, an attribute or a command. -/
def isName : List Char → Bool
  | [] => false
  | c :: rest => isNameStart c && rest.all isNameChar

/-- Node names and the parts of dialogue names also have hyphens and may start with a digit. -/
def isNodeNameChar (c : Char) : Bool := isNameChar c || c == '-'

def isNodeName (cs : List Char) : Bool := !cs.isEmpty && cs.all isNodeNameChar

/-- Lower case of a Latin letter. The Kelvin sign is the one other character whose lower case is
such a letter. -/
def lowerChar (c : Char) : Char :=
  if 'A' ≤ c && c ≤ 'Z' then Char.ofNat (c.toNat + 32)
  else if c = '\u212a' then 'k'
  else c

def lower (s : String) : String := String.ofList (s.toList.map lowerChar)

/-- The parts of a text between the occurrences of a separator. -/
def splitChars (separator : Char) : List Char → List (List Char)
  | [] => [[]]
  | c :: rest =>
      if c = separator then [] :: splitChars separator rest
      else match splitChars separator rest with
        | [] => [[c]]
        | part :: parts => (c :: part) :: parts

/-- Names joined by slashes, one at least. -/
def isDialogueName (s : String) : Bool := (splitChars '/' s.toList).all isNodeName

/-- The names of a list in order, each once. -/
def sortedNames (names : List String) : List String :=
  (names.mergeSort fun a b => decide (a < b ∨ a = b)).eraseReps

end Parley
