import Parley.Expr.Parser
import Parley.Number.Notation

/-!
What can be wrong with a script, each cause with its message and with the place where it stands.
-/
namespace Parley

/-- The kinds of tokens that a body is made of. -/
inductive TokenKind where
  | text
  | var
  | commandStart
  | commandEnd
  | quoted
  | replyStart
  | replyEnd
  | separator
  deriving DecidableEq

def TokenKind.name : TokenKind → String
  | .text => "TEXT"
  | .var => "VARIABLE"
  | .commandStart => "COMMAND_START"
  | .commandEnd => "COMMAND_END"
  | .quoted => "QUOTED_STRING"
  | .replyStart => "REPLY_START"
  | .replyEnd => "REPLY_END"
  | .separator => "REPLY_SEPARATOR"

/-- Why a reference to another dialogue leads nowhere. -/
inductive PathDefect where
  | empty
  | aboveRoot
  deriving DecidableEq

def PathDefect.message : PathDefect → String
  | .empty => "External node pointer refers to empty dialogue name"
  | .aboveRoot => "External node pointer refers to a dialogue above the root"

inductive PointerDefect where
  | empty
  | notPlain
  | malformed (text : String)
  | path (defect : PathDefect)
  deriving DecidableEq

/-- What is wrong with the attributes of a command. -/
inductive AttributeDefect where
  | nameExpected (found : TokenKind)
  | invalidName (name : String)
  | noEquals
  | textAfterEquals
  | valueExpected (found : TokenKind)
  | missing (name : String)
  | notPlain (name source : String)
  | notVariable (name source : String)
  | invalid (name value : String)
  | notBoolean (name value : String)
  | tooSmall (name bound value : String)
  | tooLarge (name bound value : String)
  | invalidTime (name value : String)
  | without (present absent : String)
  deriving DecidableEq

inductive Cause where
  | commandInCommand
  | commandEndAlone
  | replyInReply
  | replyEndAlone
  | openQuote
  | openCommand
  | openBlock (name : String)
  | openReply
  | contentAfterReply
  | commandAfterReply
  | secondAutoforward
  | unexpectedToken (found : TokenKind)
  | commandNameExpected (found : TokenKind)
  | commandExpected (found : TokenKind)
  | unexpectedCommand (name : String)
  | unknownCommand (name : String)
  | attributes (defect : AttributeDefect)
  | elseifAfterElse
  | secondElse
  | assignmentInCondition (command : String)
  | assignmentInValue
  | notAssignment
  | otherCommand (expected found : String)
  | noExpression (command : String)
  | contentAfterName (command : String)
  | emptyCommand
  | invalidCommandName
  | invalidExpression (defect : Expr.Defect)
  | tooManySections
  | pointer (defect : PointerDefect)
  | invalidDialogueName (name : String)
  | headerOpen
  | incompleteNode
  | noColon
  | emptyHeaderName
  | duplicateHeader (name : String)
  | invalidTitle (title : String)
  | duplicateTitle (title : String)
  | missingHeader (name : String)
  | emptySpeaker
  | bodyOfEnd (title : String)
  | noStart
  | danglingPointer (target : String)
  deriving DecidableEq

def AttributeDefect.message : AttributeDefect → String
  | nameExpected found => "Expected attribute name, found token: " ++ found.name
  | invalidName name => "Invalid attribute name: " ++ name
  | noEquals => "Character = not found after attribute name"
  | textAfterEquals => "Unexpected text after ="
  | valueExpected found => "Expected quoted string, found token: " ++ found.name
  | missing name => "Required attribute \"" ++ name ++ "\" not found"
  | notPlain name source => "Value for attribute \"" ++ name ++ "\" is not plain text: " ++ source
  | notVariable name source => "Value for attribute \"" ++ name ++ "\" is not a variable: " ++ source
  | invalid name value => "Invalid value for attribute \"" ++ name ++ "\": " ++ value
  | notBoolean name value =>
      "Invalid value for attribute \"" ++ name ++ "\" (use \"true\" or \"false\"): " ++ value
  | tooSmall name bound value =>
      "Value for attribute \"" ++ name ++ "\" < " ++ bound ++ ": " ++ value
  | tooLarge name bound value =>
      "Value for attribute \"" ++ name ++ "\" > " ++ bound ++ ": " ++ value
  | invalidTime name value =>
      "Invalid value for attribute \"" ++ name ++ "\": Invalid local time value: " ++ value
  | without present absent =>
      "Found attribute \"" ++ present ++ "\" without attribute \"" ++ absent ++ "\""

def PointerDefect.message : PointerDefect → String
  | empty => "Empty node pointer in reply"
  | notPlain => "Invalid node pointer in reply"
  | malformed text => "Invalid node pointer in reply: " ++ text
  | path defect => "Invalid node pointer in reply: " ++ defect.message

def Cause.message : Cause → String
  | commandInCommand => "Found << inside <<...>>"
  | commandEndAlone => "Found >> without preceding <<"
  | replyInReply => "Found [[ inside [[...]]"
  | replyEndAlone => "Found ]] without preceding [["
  | openQuote => "Quoted string not terminated"
  | openCommand => "Command not terminated"
  | openBlock name => "Command \"" ++ name ++ "\" not terminated"
  | openReply => "Reply not terminated"
  | contentAfterReply => "Found content after reply"
  | commandAfterReply => "Found << after reply"
  | secondAutoforward => "Found more than one autoforward reply"
  | unexpectedToken found => "Unexpected token: " ++ found.name
  | commandNameExpected found => "Expected command name, found token: " ++ found.name
  | commandExpected found => "Expected <<, found token: " ++ found.name
  | unexpectedCommand name => "Unexpected command: " ++ name
  | unknownCommand name => "Unknown command: " ++ name
  | attributes defect => defect.message
  | elseifAfterElse => "Found \"elseif\" after \"else\""
  | secondElse => "Found more than one \"else\""
  | assignmentInCondition command =>
      "Found assignment expression in \"" ++ command ++ "\" command"
  | assignmentInValue => "Found assignment expression in value operand of \"set\" command"
  | notAssignment => "Expression in \"set\" command is not an assignment"
  | otherCommand expected found => "Expected command \"" ++ expected ++ "\", found: " ++ found
  | noExpression command => "Expression not found in command \"" ++ command ++ "\""
  | contentAfterName command => "Unexpected content after command name \"" ++ command ++ "\""
  | emptyCommand => "Found empty command"
  | invalidCommandName => "Invalid command name"
  | invalidExpression defect => "Invalid expression in command: " ++ defect.message
  | tooManySections => "Exceeded maximum number of 3 sections"
  | pointer defect => defect.message
  | invalidDialogueName name => "Invalid dialogue name: " ++ name
  | headerOpen => "End of header not found"
  | incompleteNode => "Found incomplete node at end of file"
  | noColon => "Character : not found in header line"
  | emptyHeaderName => "Found empty header name"
  | duplicateHeader name => "Found duplicate header: " ++ name
  | invalidTitle title => "Invalid node title: " ++ title
  | duplicateTitle title => "Found duplicate node title: " ++ title
  | missingHeader name => "Required header \"" ++ name ++ "\" not found"
  | emptySpeaker => "Found empty speaker"
  | bodyOfEnd title => "Node \"" ++ title ++ "\" must have an empty body"
  | noStart => "Node with title \"Start\" not found"
  | danglingPointer target => "Found reply with pointer to non-existing node: " ++ target

/-- The families that causes fall into. -/
inductive Cause.Family where
  | general
  | unterminated
  | attributes
  | command
  | clause
  deriving DecidableEq

def Cause.family : Cause → Cause.Family
  | openQuote | openCommand | openBlock _ | openReply => .unterminated
  | attributes _ => .attributes
  | unexpectedCommand _ | unknownCommand _ => .command
  | elseifAfterElse | secondElse => .clause
  | _ => .general

/-- A cause and its place; a script without a proper name has no place for its defect. -/
structure ScriptError where
  cause : Cause
  position : Option Position
  deriving DecidableEq

/-- Whether an error ends the reading of a whole script, and not of one node only. -/
def ScriptError.isFatal (e : ScriptError) : Bool := e.cause = .invalidExpression .longNumber

def Cause.placedAt (cause : Cause) (position : Position) : ScriptError := ⟨cause, some position⟩

def ScriptError.message (e : ScriptError) : String :=
  e.cause.message ++ (e.position.map Position.mark).getD ""

end Parley
