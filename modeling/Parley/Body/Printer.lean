import Parley.Body.Model

/-!
The script of bodies, commands and replies.
-/
namespace Parley

def parameterText (p : String × Template) : String :=
  Input.attributeText p.1 (p.2.toScript .quoted)

def Action.toScript (a : Action) : String :=
  "<<action" ++ Input.attributeText "type" a.type.name ++
    Input.attributeText "value" (a.value.toScript .quoted) ++
    String.join (a.parameters.map parameterText) ++ ">>"

def Assignment.toScript (s : Assignment) : String := "<<set " ++ s.expr.toText ++ ">>"

def ReplyCommand.toScript : ReplyCommand → String
  | action a => a.toScript
  | set s => s.toScript

def statementScript : List (Segment Input) → String
  | [] => ""
  | .text t :: rest => t.toScript .body ++ statementScript rest
  | .command i :: rest => i.toScript ++ statementScript rest

/-- The parts of a reply that are there, divided by bars. -/
def Reply.toScript (r : Reply) : String :=
  let statement := (r.statement.map fun s => statementScript s ++ "|").getD ""
  let commands :=
    if r.commands.isEmpty then "" else "|" ++ String.join (r.commands.map ReplyCommand.toScript)
  "[[" ++ statement ++ r.pointer.toScript ++ commands ++ "]]"

/-- The text of a weight: plain digits if it is whole. -/
def weightText : Number → String
  | .whole n => intText n
  | .binary x =>
      match x.isWhole, x.truncate? with
      | true, some n => intText n
      | _, _ => x.text

def isUnit : Number → Bool
  | .whole n => n == 1
  | .binary x => x.compare? (Binary64.ofInt 1) == some .eq

/-- A weight of one is left out. -/
def weightAttribute (w : Number) : String :=
  if isUnit w then "" else Input.attributeText "weight" (weightText w)

mutual

def Command.toScript : Command → String
  | .action a => a.toScript
  | .set s => s.toScript
  | .choice clauses otherwise =>
      clausesScript "if" clauses ++ otherwiseScript otherwise ++ "<<endif>>"
  | .random clauses => weightedScript "random" clauses ++ "<<endrandom>>"
  | .input i => i.toScript

def clausesScript (keyword : String) : List IfClause → String
  | [] => ""
  | ⟨condition, body⟩ :: rest =>
      "<<" ++ keyword ++ " " ++ condition.toText ++ ">>\n" ++ body.toScript ++ "\n" ++
        clausesScript "elseif" rest

def otherwiseScript : Option Body → String
  | none => ""
  | some body => "<<else>>\n" ++ body.toScript ++ "\n"

def weightedScript (keyword : String) : List RandomClause → String
  | [] => ""
  | ⟨weight, body⟩ :: rest =>
      "<<" ++ keyword ++ weightAttribute weight ++ ">>\n" ++ body.toScript ++ "\n" ++
        weightedScript "or" rest

def segmentsScript : List (Segment Command) → String
  | [] => ""
  | .text t :: rest => t.toScript .body ++ segmentsScript rest
  | .command c :: rest => c.toScript ++ segmentsScript rest

def Body.toScript : Body → String
  | ⟨segments, replies⟩ =>
      segmentsScript segments ++ String.join (replies.map fun r => "\n" ++ r.toScript)

end

end Parley
