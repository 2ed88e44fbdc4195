import Parley.Assoc
import Parley.Body.Item
import Parley.Number.Arithmetic
import Parley.Text.Name
import Parley.Value.Order

/-!
Attributes of commands: names, equals signs and quoted values, and their reading as values of the
kinds that commands ask for.
-/
namespace Parley

/-- The value of an attribute and where it is written. -/
structure Attribute where
  value : Template
  source : String
  position : Position

/-- The attributes of a command that starts at some place. -/
structure Attributes where
  start : Position
  entries : List (String × Attribute)

namespace Attributes

def fail {α : Type} (defect : AttributeDefect) (position : Position) : Except ScriptError α :=
  .error ((Cause.attributes defect).placedAt position)

/-- The text before the first equals sign, and the text behind it if there is one. -/
def atEquals (cs : List Char) : List Char × Option (List Char) :=
  (cs.takeWhile (· != '='), (cs.dropWhile (· != '=')).tail?)

/-- The name that stands in front of a value. -/
def nameIn (written : List Char) (position : Position) : Except ScriptError String :=
  let (before, after) := atEquals written
  let name := stripChars before
  if !isName name then fail (.invalidName (String.ofList name)) position
  else match after with
    | none => fail .noEquals position
    | some rest =>
        if rest.all Parley.isBlank then .ok (String.ofList name)
        else fail .textAfterEquals position

/-- The attributes in some tokens, added to those found before. -/
def collect (command : Enclosed) (found : List (String × Attribute)) :
    List Token → Except ScriptError (List (String × Attribute))
  | [] =>
      if command.stop.isSome then .ok found else .error (Cause.openCommand.placedAt command.start)
  | t :: rest =>
      match t.content with
      | .text value => do
          let name ← nameIn (stripChars value.toList) t.position
          match _h : Token.skipBlank rest with
          | [] =>
              match command.stop with
              | some stop => fail (.valueExpected .commandEnd) stop
              | none => .error (Cause.openCommand.placedAt command.start)
          | v :: others =>
              match v.content with
              | .quoted value =>
                  collect command (Assoc.insert name ⟨value, v.source, v.position⟩ found)
                    (Token.skipBlank others)
              | other => fail (.valueExpected other.kind) v.position
      | other => fail (.nameExpected other.kind) t.position
  termination_by tokens => tokens.length
  decreasing_by
    have first := (List.dropWhile_suffix (l := rest) Token.isBlank).length_le
    have second := (List.dropWhile_suffix (l := others) Token.isBlank).length_le
    simp only [Token.skipBlank] at _h ⊢
    simp only [_h, List.length_cons] at first ⊢
    omega

/-- The tokens behind the name of a command. What follows the name in the same stretch of text is
left of its token. -/
def behindName : List Token → List Token
  | [] => []
  | t :: rest =>
      match t.content with
      | .text value =>
          let (_, following) := firstWord (stripChars value.toList)
          if following.isEmpty then Token.skipBlank rest
          else { t with content := .text (String.ofList following) } :: rest
      | _ => t :: rest

/-- The attributes of a command whose tokens start with its name. -/
def ofCommand (command : Enclosed) : Except ScriptError Attributes := do
  return ⟨command.start, ← collect command [] (behindName command.inner)⟩

def get? (a : Attributes) (name : String) : Option Attribute := Assoc.get? name a.entries

def has (a : Attributes) (name : String) : Bool := Assoc.contains name a.entries

/-- The place that an error in an attribute is reported at. -/
def place (a : Attributes) (name : String) : Position :=
  ((a.get? name).map Attribute.position).getD a.start

def source (a : Attributes) (name : String) : String :=
  ((a.get? name).map Attribute.source).getD ""

def template (a : Attributes) (name : String) (required : Bool) :
    Except ScriptError (Option Template) :=
  match a.get? name with
  | some found => .ok (some found.value)
  | none => if required then fail (.missing name) a.start else .ok none

/-- A value in which no variable stands. -/
def plain (a : Attributes) (name : String) (required : Bool) :
    Except ScriptError (Option String) := do
  match ← a.template name required with
  | none => return none
  | some t =>
      if t.isPlain then return some t.plainText
      else fail (.notPlain name (a.source name)) (a.place name)

/-- A value that is nothing but one variable. -/
def varName (a : Attributes) (name : String) (required : Bool) :
    Except ScriptError (Option String) := do
  match ← a.template name required with
  | none => return none
  | some t =>
      match t.singleVar? with
      | some target => return some target
      | none => fail (.notVariable name (a.source name)) (a.place name)

def numberText (n : Number) : String := n.value.written

/-- Refuses a number out of its bounds. -/
def checkBounds (a : Attributes) (name : String) (n : Number) (least most : Option Number) :
    Except ScriptError Unit := do
  if let some bound := least then
    if n.value.order? bound.value = some .lt then
      fail (.tooSmall name (numberText bound) (numberText n)) (a.place name)
  if let some bound := most then
    if n.value.order? bound.value = some .gt then
      fail (.tooLarge name (numberText bound) (numberText n)) (a.place name)

def integer (a : Attributes) (name : String) (required : Bool) (least most : Option Number) :
    Except ScriptError (Option Int) := do
  match ← a.plain name required with
  | none => return none
  | some text =>
      match Numeral.int? text with
      | none => fail (.invalid name text) (a.place name)
      | some n =>
          a.checkBounds name (.whole n) least most
          return some n

/-- A finite number. -/
def number (a : Attributes) (name : String) (required : Bool) (least most : Option Number) :
    Except ScriptError (Option Binary64) := do
  match ← a.plain name required with
  | none => return none
  | some text =>
      match Numeral.float? text with
      | none => fail (.invalid name text) (a.place name)
      | some x =>
          if x.isFinite then
            a.checkBounds name (.binary x) least most
            return some x
          else fail (.invalid name text) (a.place name)

def boolean (a : Attributes) (name : String) (required : Bool) :
    Except ScriptError (Option Bool) := do
  match ← a.plain name required with
  | none => return none
  | some text =>
      if lower text = "true" then return some true
      else if lower text = "false" then return some false
      else fail (.notBoolean name text) (a.place name)

end Attributes
end Parley
