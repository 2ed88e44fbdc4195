import Parley.Assoc
import Parley.Template
import Parley.Time.LocalTime

/-!
Questions to the user inside the statement of a reply. The answer goes to the variable that an
input names.
-/
namespace Parley

/-- Which characters an answer may have and how it is put in capitals. -/
structure TextRules where
  allowNumbers : Bool
  allowSpecialCharacters : Bool
  allowSpaces : Bool
  capCharacters : Bool
  capWords : Bool
  capSentences : Bool
  forceCapCharacters : Bool
  forceCapWords : Bool
  forceCapSentences : Bool
  deriving DecidableEq

namespace TextRules

def standard : TextRules := ⟨true, true, true, false, false, false, false, false, false⟩

/-- The rules by name, each with its standard. -/
def entries (r : TextRules) : List (String × Bool × Bool) :=
  [("allowNumbers", r.allowNumbers, true),
    ("allowSpecialCharacters", r.allowSpecialCharacters, true),
    ("allowSpaces", r.allowSpaces, true),
    ("capCharacters", r.capCharacters, false),
    ("capWords", r.capWords, false),
    ("capSentences", r.capSentences, false),
    ("forceCapCharacters", r.forceCapCharacters, false),
    ("forceCapWords", r.forceCapWords, false),
    ("forceCapSentences", r.forceCapSentences, false)]

/-- Reads the rules by name, in the order of `entries`; one that is not given has its standard. -/
def read {m : Type → Type} [Monad m] (given : String → m (Option Bool)) : m TextRules := do
  let allowNumbers ← given "allowNumbers"
  let allowSpecialCharacters ← given "allowSpecialCharacters"
  let allowSpaces ← given "allowSpaces"
  let capCharacters ← given "capCharacters"
  let capWords ← given "capWords"
  let capSentences ← given "capSentences"
  let forceCapCharacters ← given "forceCapCharacters"
  let forceCapWords ← given "forceCapWords"
  let forceCapSentences ← given "forceCapSentences"
  return ⟨allowNumbers.getD true, allowSpecialCharacters.getD true, allowSpaces.getD true,
    capCharacters.getD false, capWords.getD false, capSentences.getD false,
    forceCapCharacters.getD false, forceCapWords.getD false, forceCapSentences.getD false⟩

end TextRules

/-- A box to tick, which has its own variable. -/
structure Choice where
  variableName : String
  label : Template
  deriving DecidableEq

/-- Bounds of a number or of the length of a text. -/
structure Bounds where
  least : Option Int
  most : Option Int
  deriving DecidableEq

/-- Times that a clock starts with and is limited to. -/
structure ClockTimes where
  start : Option Template
  least : Option Template
  most : Option Template
  deriving DecidableEq

inductive Field where
  | email (target : String)
  | text (target : String) (bounds : Bounds) (rules : TextRules)
  | longText (target : String) (bounds : Bounds) (rules : TextRules)
  | numeric (target : String) (bounds : Bounds)
  | choices (options : List Choice)
  | time (target : String) (granularity : Int) (times : ClockTimes)
  deriving DecidableEq

structure Input where
  description : Option String
  field : Field
  deriving DecidableEq

namespace ClockTimes

/-- The times by name. -/
def entries (t : ClockTimes) : List (String × Option Template) :=
  [("startTime", t.start), ("minTime", t.least), ("maxTime", t.most)]

def templates (t : ClockTimes) : List Template := t.entries.filterMap (·.2)

end ClockTimes

namespace Field

/-- The name of the kind of field. -/
def typeName : Field → String
  | email _ => "email"
  | text .. => "text"
  | longText .. => "longtext"
  | numeric .. => "numeric"
  | choices _ => "set"
  | time .. => "time"

def reads : Field → List String
  | choices options => options.flatMap (·.label.reads)
  | time _ _ times => times.templates.flatMap Template.reads
  | _ => []

/-- The variables that the answer goes to. -/
def writes : Field → List String
  | email target | text target _ _ | longText target _ _ | numeric target _
  | time target _ _ => [target]
  | choices options => options.map (·.variableName)

end Field

namespace Input

def reads (i : Input) : List String := i.field.reads

def writes (i : Input) : List String := i.field.writes

def ofOptionalInt (n : Option Int) : Value := (n.map Value.int).getD .null

def ruleValues (rules : TextRules) : List (String × Value) :=
  rules.entries.map fun (name, value, _) => (name, .bool value)

def boundValues (bounds : Bounds) : List (String × Value) :=
  (bounds.least.map fun n => ("min", Value.int n)).toList ++
    (bounds.most.map fun n => ("max", Value.int n)).toList

/-- What a client has to know to ask the question. -/
def parameters (i : Input) : List (String × Value) :=
  match i.field with
  | .email target => [("variableName", .text target)]
  | .text target bounds rules | .longText target bounds rules =>
      ("variableName", .text target) :: boundValues bounds ++ ruleValues rules
  | .numeric target bounds =>
      [("variableName", .text target), ("min", ofOptionalInt bounds.least),
        ("max", ofOptionalInt bounds.most)]
  | .choices options =>
      [("options", .list (options.map fun o =>
        .map [("variableName", .text o.variableName), ("text", .text o.label.plainText)]))]
  | .time target granularity times =>
      [("variableName", .text target), ("granularityMinutes", .int granularity)] ++
        times.entries.filterMap fun (name, time) =>
          time.map fun t => (name, Value.text t.plainText)

/-- What the user has answered, given the values of the variables. -/
def answer (i : Input) (lookup : String → Option Value) : Except Failure String :=
  match i.field with
  | .email target | .text target _ _ | .longText target _ _ | .numeric target _
  | .time target _ _ => ((lookup target).getD .null).format
  | .choices options =>
      let chosen := options.filter fun o => ((lookup o.variableName).getD .null).truthy
      (Value.list (chosen.map fun o => .text o.label.plainText)).format

/-- The written form of an attribute. -/
def attributeText (name value : String) : String := " " ++ name ++ "=\"" ++ value ++ "\""

def boundsText (bounds : Bounds) : String :=
  String.join ((boundValues bounds).map fun (name, n) => attributeText name n.written)

def rulesText (rules : TextRules) : String :=
  String.join (rules.entries.map fun (name, value, standard) =>
    if value = standard then "" else attributeText name (if value then "true" else "false"))

/-- The options of a set, numbered from `number` on. -/
def choicesText (number : Nat) : List Choice → String
  | [] => ""
  | o :: rest =>
      attributeText ("value" ++ natText number) ("$" ++ o.variableName) ++
        attributeText ("option" ++ natText number) (o.label.toScript .quoted) ++
        choicesText (number + 1) rest

def fieldText : Field → String
  | .email target => attributeText "value" ("$" ++ target)
  | .text target bounds rules | .longText target bounds rules =>
      attributeText "value" ("$" ++ target) ++ boundsText bounds ++ rulesText rules
  | .numeric target bounds => attributeText "value" ("$" ++ target) ++ boundsText bounds
  | .choices options => choicesText 1 options
  | .time target granularity times =>
      attributeText "value" ("$" ++ target) ++
        attributeText "granularityMinutes" (intText granularity) ++
        String.join (times.entries.map fun (name, time) =>
          (time.map fun t => attributeText name (t.toScript .quoted)).getD "")

def toScript (i : Input) : String :=
  "<<input" ++ attributeText "type" i.field.typeName ++
    (i.description.map fun d => attributeText "description" (escapeText .quoted d)).getD "" ++
    fieldText i.field ++ ">>"

end Input
end Parley
