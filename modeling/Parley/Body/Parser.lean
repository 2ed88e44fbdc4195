import Parley.Body.Attributes
import Parley.Body.Model
import Parley.Body.Tokenizer
import Parley.Expr.Parser
import Parley.Text.Lines

/-!
Reading bodies. The items of a body are taken one after the other; the blocks that are still open
are kept on a stack, the innermost in front, each with the body that it stands in.
-/
namespace Parley

/-- A pointer and the place where it is written. -/
structure PointerUse where
  pointer : Pointer
  position : Position

namespace Enclosed

/-- The name of a command, its token, and the command from that token on. -/
def named (e : Enclosed) : Except ScriptError (String × Token × Enclosed) :=
  match Token.skipBlank e.inner with
  | [] =>
      match e.stop with
      | some stop => .error ((Cause.commandNameExpected .commandEnd).placedAt stop)
      | none => .error (Cause.openCommand.placedAt e.start)
  | t :: rest =>
      match t.content with
      | .text _ =>
          .ok (String.ofList (firstWord t.source.toList).1, t, { e with inner := t :: rest })
      | other => .error ((Cause.commandNameExpected other.kind).placedAt t.position)

/-- The source of a command from its name to its end. -/
def source (e : Enclosed) : Except ScriptError (List Char) :=
  if e.stop.isSome then .ok (e.inner.flatMap (·.source.toList))
  else .error (Cause.openCommand.placedAt e.start)

/-- The place in the script of something in an expression that starts behind `before`, the first
characters of a command whose name stands at `origin`. -/
def placeInScript (origin : Position) (before : List Char) (p : Position) : Position :=
  let behind := Position.start.after before
  let column := if p.line = 1 then behind.column - 1 + p.column else p.column
  let line := behind.line - 1 + p.line
  ⟨origin.line + (line - 1), if line = 1 then column + origin.column - 1 else column⟩

/-- The name in the source of a command and the expression behind it, if there is one. -/
def nameAndExpr (e : Enclosed) : Except ScriptError (String × Option Expr) := do
  let content ← e.source
  let origin := (e.inner.head?.map (·.position)).getD e.start
  if content.all isBlank then .error (Cause.emptyCommand.placedAt e.start)
  else
    let blanks := content.takeWhile isBlank
    let name := Tokenizer.nameAt (content.dropWhile isBlank)
    if name.isEmpty then .error (Cause.invalidCommandName.placedAt origin)
    else
      let before := blanks ++ name
      let rest := content.drop before.length
      if rest.all isBlank then return (String.ofList name, none)
      else match Expr.parseChars rest with
        | .ok expr => return (String.ofList name, some expr)
        | .error defect =>
            .error ((Cause.invalidExpression defect.defect).placedAt
              (placeInScript origin before defect.position))

/-- The expression of a command with a known name. -/
def expr (e : Enclosed) (name : String) : Except ScriptError Expr := do
  match ← e.nameAndExpr with
  | (found, expr) =>
      if found ≠ name then .error ((Cause.otherCommand name found).placedAt e.start)
      else match expr with
        | some expr => return expr
        | none => .error ((Cause.noExpression name).placedAt e.start)

/-- Refuses anything behind the name of a command. -/
def nameOnly (e : Enclosed) (name : String) : Except ScriptError Unit := do
  match ← e.nameAndExpr with
  | (found, expr) =>
      if found ≠ name then .error ((Cause.otherCommand name found).placedAt e.start)
      else match expr with
        | some _ => .error ((Cause.contentAfterName name).placedAt e.start)
        | none => return

/-- The condition of a clause, which must not assign. -/
def condition (e : Enclosed) (name : String) : Except ScriptError Expr := do
  let expr ← e.expr name
  if expr.assigns then .error ((Cause.assignmentInCondition name).placedAt e.start)
  else return expr

/-- The assignment of a `set` command, the only one in it. -/
def assignment (e : Enclosed) : Except ScriptError Assignment := do
  match ← e.expr "set" with
  | .assign target value =>
      if value.assigns then .error (Cause.assignmentInValue.placedAt e.start)
      else return ⟨target, value⟩
  | _ => .error (Cause.notAssignment.placedAt e.start)

end Enclosed

/-- The name and the attributes of the command that a text starts with, and the tokens behind it. -/
def Attributes.ofText (text : String) : Except ScriptError (String × Attributes × List Token) := do
  match ← Tokenizer.readText text with
  | [] => .error (Cause.openCommand.placedAt .start)
  | t :: rest =>
      let (name, _, command) ← (Enclosed.upTo .commandEnd t.position rest).named
      return (name, ← ofCommand command, Token.behind .commandEnd rest)

def actionTypes : List ActionType := [.image, .video, .link, .generic]

def Action.ofAttributes (a : Attributes) : Except ScriptError Action := do
  let name := (← a.plain "type" true).getD ""
  match actionTypes.find? (·.name == name) with
  | none => Attributes.fail (.invalid "type" name) (a.place "type")
  | some type =>
      let value := (← a.template "value" true).getD .empty
      let others := a.entries.filter fun (name, _) => name != "type" && name != "value"
      return ⟨type, value, others.map fun (name, found) => (name, found.value)⟩

namespace Input

def boundsOf (a : Attributes) : Except ScriptError Bounds := do
  let least ← a.integer "min" false none none
  let most ← a.integer "max" false none none
  return ⟨least, most⟩

def targetOf (a : Attributes) (name : String) : Except ScriptError String := do
  return (← a.varName name true).getD ""

/-- The options of a set from a number on, as long as there are any. No more options can follow
than there are attributes. -/
def choicesOf (a : Attributes) (number : Nat) : Nat → Except ScriptError (List Choice)
  | 0 => .ok []
  | fuel + 1 => do
      let value := "value" ++ natText number
      let option := "option" ++ natText number
      if !a.has value && !a.has option then return []
      else if !a.has option then Attributes.fail (.without value option) a.start
      else if !a.has value then Attributes.fail (.without option value) a.start
      else
        let target ← targetOf a value
        let label := (← a.template option false).getD .empty
        return ⟨target, label⟩ :: (← choicesOf a (number + 1) fuel)

/-- A time; one without variables is brought to its standard form. -/
def timeOf (a : Attributes) (name : String) : Except ScriptError (Option Template) := do
  match ← a.template name false with
  | none => return none
  | some t =>
      if t.isPlain then
        match LocalTime.normalize? t.plainText with
        | some text => return some (.ofText text)
        | none => Attributes.fail (.invalidTime name t.plainText) (a.place name)
      else return some t

def fieldOf (a : Attributes) (type : String) : Except ScriptError Field := do
  match type with
  | "email" => return .email (← targetOf a "value")
  | "text" =>
      let target ← targetOf a "value"
      let bounds ← boundsOf a
      return .text target bounds (← TextRules.read fun name => a.boolean name false)
  | "longtext" =>
      let target ← targetOf a "value"
      let bounds ← boundsOf a
      return .longText target bounds (← TextRules.read fun name => a.boolean name false)
  | "numeric" =>
      let target ← targetOf a "value"
      return .numeric target (← boundsOf a)
  | "set" => return .choices (← choicesOf a 1 (a.entries.length + 1))
  | _ =>
      let granularity ← a.integer "granularityMinutes" false (some (.whole 1)) none
      let start ← timeOf a "startTime"
      let least ← timeOf a "minTime"
      let most ← timeOf a "maxTime"
      return .time (← targetOf a "value") (granularity.getD 1) ⟨start, least, most⟩

def types : List String := ["email", "text", "longtext", "numeric", "set", "time"]

def ofAttributes (a : Attributes) : Except ScriptError Input := do
  let type := (← a.plain "type" true).getD ""
  if !types.contains type then Attributes.fail (.invalid "type" type) (a.place "type")
  else
    let description ← a.plain "description" false
    return ⟨description.filter (!·.isEmpty), ← fieldOf a type⟩

end Input

/-- The weight that is written, or one. -/
def weightOf (a : Attributes) : Except ScriptError Number := do
  let weight ← a.number "weight" false (some (.binary (.zero false))) none
  return .binary (weight.getD (Binary64.ofInt 1))

namespace Body

def commandNames : List String := ["action", "if", "input", "random", "set"]

def choiceClauses : List String := ["elseif", "else", "endif"]

def randomClauses : List String := ["or", "endrandom"]

/-- The commands that a body may have unless said otherwise. -/
def standardCommands : List String := ["action", "if", "random", "set"]

/-- Refuses a command that is not allowed where it stands. -/
def permit (allowed : List String) (name : String) (t : Token) : Except ScriptError Unit :=
  if allowed.contains name && commandNames.contains name then .ok ()
  else if !allowed.contains name &&
      (commandNames ++ choiceClauses ++ randomClauses).contains name then
    .error ((Cause.unexpectedCommand name).placedAt t.position)
  else .error ((Cause.unknownCommand name).placedAt t.position)

/-! Statements and commands of replies -/

def statementStep (segments : List (Segment Input)) : Item → Except ScriptError (List (Segment Input))
  | .text tokens => .ok (Segment.pushText segments (Item.template tokens))
  | .command tokens => do
      let (name, t, tokens) ← tokens.named
      permit ["input"] name t
      return Segment.pushCommand segments (← Input.ofAttributes (← Attributes.ofCommand tokens))
  | .reply tokens => .error ((Cause.unexpectedToken .replyStart).placedAt tokens.start)
  | .stray t => .error ((Cause.unexpectedToken t.kind).placedAt t.position)

/-- The statement in some tokens, none if they are blank. -/
def statementOf (tokens : List Token) : Except ScriptError (Option (List (Segment Input))) := do
  let segments := Segment.trim (← (Item.ofTokens tokens).foldlM statementStep [])
  return if segments.isEmpty then none else some segments

def replyCommand (tokens : Enclosed) : Except ScriptError ReplyCommand := do
  let (name, t, tokens) ← tokens.named
  permit ["action", "set"] name t
  if name = "action" then return .action (← Action.ofAttributes (← Attributes.ofCommand tokens))
  else return .set (← tokens.assignment)

def replyCommands : List Item → Except ScriptError (List ReplyCommand)
  | [] => .ok []
  | .command tokens :: rest => do
      let command ← replyCommand tokens
      return command :: (← replyCommands rest)
  | .text tokens :: rest =>
      match Token.skipBlank tokens with
      | [] => replyCommands rest
      | t :: _ => .error ((Cause.commandExpected t.kind).placedAt t.position)
  | .reply tokens :: _ => .error ((Cause.commandExpected .replyStart).placedAt tokens.start)
  | .stray t :: _ => .error ((Cause.commandExpected t.kind).placedAt t.position)

/-- A part of a reply and the place behind it. -/
structure Section where
  tokens : List Token
  stop : Position

/-- Cuts the tokens of a reply at its bars; `left` more parts may follow the one being read. -/
def sections (reply : Enclosed) : Nat → List Token → List Token → Except ScriptError (List Section)
  | _, read, [] =>
      match reply.stop with
      | some stop => .ok [⟨read, stop⟩]
      | none => .error (Cause.openReply.placedAt reply.start)
  | left, read, t :: rest =>
      if t.kind = .separator then
        match left with
        | 0 => .error (Cause.tooManySections.placedAt t.position)
        | left + 1 => do return ⟨read, t.position⟩ :: (← sections reply left [] rest)
      else sections reply left (read ++ [t]) rest

def pointerOf (dialogue : String) (s : Section) : Except ScriptError PointerUse :=
  match Token.trim s.tokens with
  | [] => .error ((Cause.pointer .empty).placedAt s.stop)
  | [⟨.text text, _, position⟩] =>
      match Pointer.ofText dialogue text with
      | .ok pointer => .ok ⟨pointer, position⟩
      | .error defect => .error ((Cause.pointer defect).placedAt position)
  | t :: _ => .error ((Cause.pointer .notPlain).placedAt t.position)

/-- The reply with a number in some tokens, and the pointer as it is written. -/
def replyOf (dialogue : String) (id : Nat) (tokens : Enclosed) :
    Except ScriptError (Reply × PointerUse) := do
  let (statement, pointer, commands) ← match ← sections tokens 2 [] tokens.inner with
    | [pointer] => pure (none, pointer, none)
    | [statement, pointer] => pure (some statement, pointer, none)
    | statement :: pointer :: commands :: _ => pure (some statement, pointer, some commands)
    | [] => .error (Cause.openReply.placedAt tokens.start)
  let said ← match statement with
    | some s => statementOf s.tokens
    | none => pure none
  let use ← pointerOf dialogue pointer
  let done ← match commands with
    | some s => replyCommands (Item.ofTokens s.tokens)
    | none => pure []
  return (⟨id, said, use.pointer, done⟩, use)

/-! Bodies -/

/-- The clauses of a block that have been read and what the one being read depends on; an `else`
depends on nothing. -/
inductive Block where
  | choice (done : List IfClause) (guard : Option Expr)
  | random (done : List RandomClause) (weight : Number)

def Block.name : Block → String
  | .choice .. => "if"
  | .random .. => "random"

/-- The commands that end a clause of a block. -/
def Block.clauses : Block → List String
  | .choice .. => choiceClauses
  | .random .. => randomClauses

/-- An open block and the body that it stands in, as far as it has been read. -/
structure Frame where
  opener : Position
  block : Block
  outer : Body

structure Reading where
  body : Body
  frames : List Frame
  nextReply : Nat
  uses : List PointerUse

namespace Reading

def start (nextReply : Nat) : Reading := ⟨.empty, [], nextReply, []⟩

/-- Goes on with a further clause of the innermost block. -/
def reopen (s : Reading) (f : Frame) (rest : List Frame) (block : Block) : Reading :=
  { s with body := .empty, frames := { f with block } :: rest }

/-- Goes on behind the innermost block. -/
def close (s : Reading) (f : Frame) (rest : List Frame) (command : Command) : Reading :=
  { s with body := f.outer.addCommand command, frames := rest }

def enter (s : Reading) (opener : Position) (block : Block) : Reading :=
  { s with body := .empty, frames := ⟨opener, block, s.body⟩ :: s.frames }

/-- Ends the clause being read of the innermost block. -/
def clause (s : Reading) (f : Frame) (rest : List Frame) (name : String) (tokens : Enclosed) :
    Except ScriptError Reading := do
  let body := s.body.trim
  match f.block with
  | .random done weight =>
      let done := done ++ [⟨weight, body⟩]
      let attributes ← Attributes.ofCommand tokens
      if name = "endrandom" then return s.close f rest (.random done)
      else return s.reopen f rest (.random done (← weightOf attributes))
  | .choice done (some condition) =>
      let done := done ++ [⟨condition, body⟩]
      if name = "elseif" then
        return s.reopen f rest (.choice done (some (← tokens.condition "elseif")))
      else if name = "else" then
        tokens.nameOnly "else"
        return s.reopen f rest (.choice done none)
      else
        tokens.nameOnly "endif"
        return s.close f rest (.choice done none)
  | .choice done none =>
      if name = "elseif" then .error (Cause.elseifAfterElse.placedAt tokens.start)
      else if name = "else" then .error (Cause.secondElse.placedAt tokens.start)
      else
        tokens.nameOnly "endif"
        return s.close f rest (.choice done (some body))

/-- Reads a command that is no clause. -/
def command (s : Reading) (name : String) (tokens : Enclosed) : Except ScriptError Reading := do
  match name with
  | "if" => return s.enter tokens.start (.choice [] (some (← tokens.condition "if")))
  | "random" =>
      return s.enter tokens.start (.random [] (← weightOf (← Attributes.ofCommand tokens)))
  | "set" => return { s with body := s.body.addCommand (.set (← tokens.assignment)) }
  | "action" =>
      let action ← Action.ofAttributes (← Attributes.ofCommand tokens)
      return { s with body := s.body.addCommand (.action action) }
  | _ =>
      let input ← Input.ofAttributes (← Attributes.ofCommand tokens)
      return { s with body := s.body.addCommand (.input input) }

/-- Reads a command where no block is to be continued by it. -/
def permitted (s : Reading) (allowed : List String) (name : String) (t : Token)
    (tokens : Enclosed) : Except ScriptError Reading := do
  if !s.body.replies.isEmpty && name != "if" && name != "random" then
    .error (Cause.commandAfterReply.placedAt tokens.start)
  else
    permit allowed name t
    s.command name tokens

/-- Takes the next item of a body. Inside a block the standard commands are allowed. -/
def step (dialogue : String) (allowed : List String) (s : Reading) :
    Item → Except ScriptError Reading
  | .text tokens =>
      let t := Item.template tokens
      if s.body.replies.isEmpty then .ok { s with body := s.body.addText t }
      else if t.isBlank then .ok s
      else .error ⟨.contentAfterReply, tokens.head?.map (·.position)⟩
  | .command tokens => do
      let (name, t, tokens) ← tokens.named
      match s.frames with
      | [] => s.permitted allowed name t tokens
      | f :: rest =>
          if f.block.clauses.contains name then s.clause f rest name tokens
          else if (choiceClauses ++ randomClauses).contains name then
            .error ((Cause.openBlock f.block.name).placedAt f.opener)
          else s.permitted standardCommands name t tokens
  | .reply tokens => do
      let (reply, use) ← replyOf dialogue s.nextReply tokens
      if reply.isAutoforward && s.body.hasAutoforward then
        .error (Cause.secondAutoforward.placedAt tokens.start)
      else
        return { s with
          body := s.body.addReply reply
          nextReply := s.nextReply + 1
          uses := s.uses ++ [use] }
  | .stray t => .error ((Cause.unexpectedToken t.kind).placedAt t.position)

/-- Ends a body, in which no block may be open. -/
def finish (s : Reading) : Except ScriptError (Body × List PointerUse) :=
  match s.frames with
  | [] => .ok (s.body.trim, s.uses)
  | f :: _ => .error ((Cause.openBlock f.block.name).placedAt f.opener)

end Reading

/-- The body that some tokens form, and the pointers in it in the order of the script. -/
def ofTokens (dialogue : String) (allowed : List String) (tokens : List Token) :
    Except ScriptError (Body × List PointerUse) := do
  let s ← (Item.ofTokens tokens).foldlM (Reading.step dialogue allowed) (.start 1)
  s.finish

/-- The body that a text forms. -/
def ofText (dialogue : String) (allowed : List String) (text : String) :
    Except ScriptError (Body × List PointerUse) := do
  ofTokens dialogue allowed (← Tokenizer.readText text)

end Body
end Parley
