import Parley.Body.Parser
import Parley.Dialogue.Model

/-!
Reading the script of a dialogue. Its lines fall into blocks, one for each node, that end with a
line of three equals signs; each block is read on its own, apart from the titles that must not occur
again. When all blocks are sound, the dialogue as a whole is checked.
-/
namespace Parley

/-- An error in a script, in a node with a title or in one whose title is not known yet. -/
inductive DialogueError where
  | script (e : ScriptError)
  | node (title : Option String) (cause : ScriptError)
  deriving DecidableEq

def DialogueError.message : DialogueError → String
  | script e => e.message
  | node none cause => "Error in node: " ++ cause.message
  | node (some title) cause => "Error in node " ++ title ++ ": " ++ cause.message

def DialogueError.isFatal : DialogueError → Bool
  | script e | node _ e => e.isFatal

namespace Dialogue

/-- A line up to the comment in it. -/
def uncommented : List Char → List Char
  | [] => []
  | '/' :: '/' :: _ => []
  | c :: rest => c :: uncommented rest

/-- What a line holds apart from a comment and blanks around it. -/
def contentOf (line : List Char) : List Char := stripChars (uncommented line)

def isNodeEnd (line : List Char) : Bool := contentOf line == ['=', '=', '=']

def isHeaderEnd (line : List Char) : Bool := contentOf line == ['-', '-', '-']

/-- The lines of a node without the one that ends it. -/
structure NodeLines where
  first : Nat
  lines : List (List Char)
  ended : Bool

/-- The number of the line behind the last. -/
def NodeLines.behind (b : NodeLines) : Nat := b.first + b.lines.length

/-- The blocks of a script whose lines are numbered from `number` on. The last one has no end. -/
def blocks (number : Nat) : List (List Char) → List NodeLines
  | [] => [⟨number, [], false⟩]
  | line :: rest =>
      if isNodeEnd line then ⟨number, [], true⟩ :: blocks (number + 1) rest
      else match blocks (number + 1) rest with
        | [] => [⟨number, [line], false⟩]
        | b :: others => { b with first := number, lines := line :: b.lines } :: others

/-- The header of a node as far as it has been read. -/
structure HeaderLines where
  title : Option String
  speaker : Option (String × Position)
  tags : List (String × String)
  seen : List String

namespace HeaderLines

def initial : HeaderLines := ⟨none, none, [], []⟩

def blankLength (cs : List Char) : Nat := (cs.takeWhile isBlank).length

/-- Takes a line of a header; `taken` are the titles of earlier nodes. -/
def add (taken : String → Bool) (h : HeaderLines) (number : Nat) (line : List Char) :
    Except ScriptError HeaderLines :=
  let text := uncommented line
  if text.all isBlank then .ok h
  else
    let before := text.takeWhile (· != ':')
    match text.drop before.length with
    | [] => .error (Cause.noColon.placedAt ⟨number, 1⟩)
    | _ :: after =>
        let key := String.ofList (stripChars before)
        let value := String.ofList (stripChars after)
        let keyPlace : Position := ⟨number, blankLength before + 1⟩
        let valuePlace : Position := ⟨number, before.length + 2 + blankLength after⟩
        if key.isEmpty then .error (Cause.emptyHeaderName.placedAt ⟨number, 1⟩)
        else if h.seen.contains key then .error ((Cause.duplicateHeader key).placedAt keyPlace)
        else
          let h := { h with seen := h.seen ++ [key] }
          if key = "title" then
            if !isNodeName value.toList then .error ((Cause.invalidTitle value).placedAt valuePlace)
            else if taken value then .error ((Cause.duplicateTitle value).placedAt valuePlace)
            else .ok { h with title := some value }
          else if key = "speaker" then .ok { h with speaker := some (value, valuePlace) }
          else .ok { h with tags := h.tags ++ [(key, value)] }

/-- Takes lines numbered from `number` on; a line at fault comes with what was read before it. -/
def addAll (taken : String → Bool) (h : HeaderLines) (number : Nat) :
    List (List Char) → Except (HeaderLines × ScriptError) HeaderLines
  | [] => .ok h
  | line :: rest =>
      match h.add taken number line with
      | .ok h => addAll taken h (number + 1) rest
      | .error e => .error (h, e)

/-- The header that some lines form. The end node has no speaker, every other node has one. -/
def header (h : HeaderLines) (number : Nat) : Except ScriptError Header :=
  match h.title, h.speaker with
  | none, _ => .error ((Cause.missingHeader "title").placedAt ⟨number, 1⟩)
  | some title, speaker =>
      if Pointer.isEndId title then .ok ⟨title, none, h.tags⟩
      else match speaker with
        | none => .error ((Cause.missingHeader "speaker").placedAt ⟨number, 1⟩)
        | some (speaker, place) =>
            if speaker.isEmpty then .error (Cause.emptySpeaker.placedAt place)
            else .ok ⟨title, some speaker, h.tags⟩

end HeaderLines

/-- The body of a node in lines numbered from `number` on. The end node has none. -/
def bodyOf (dialogue : String) (header : Header) (number : Nat) (lines : List (List Char)) :
    Except ScriptError (Body × List PointerUse) := do
  let tokens ← (Tokenizer.readLines .initial number (lines.map (· ++ ['\n']))).1
  let (body, uses) ← Body.ofTokens dialogue Body.standardCommands tokens
  if Pointer.isEndId header.title && !body.isEmpty then
    .error ⟨.bodyOfEnd header.title, tokens.head?.map (·.position)⟩
  else return (body, uses)

/-- Reads the node in a block, if there is anything in it. -/
def nodeOf (dialogue : String) (taken : String → Bool) (b : NodeLines) :
    Option (Except DialogueError (Node × List PointerUse)) :=
  let above := b.lines.takeWhile (!isHeaderEnd ·)
  match HeaderLines.initial.addAll taken b.first above with
  | .error (h, e) => some (.error (.node h.title e))
  | .ok h =>
      match b.lines.drop above.length with
      | [] =>
          if b.ended then some (.error (.node h.title (Cause.headerOpen.placedAt ⟨b.behind, 1⟩)))
          else if h.seen.isEmpty then none
          else some (.error (.node h.title (Cause.incompleteNode.placedAt ⟨b.behind, 1⟩)))
      | _ :: below =>
          let number := b.first + above.length
          let read : Except ScriptError (Node × List PointerUse) := do
            let header ← h.header number
            let (body, uses) ← bodyOf dialogue header (number + 1) below
            return (⟨header, body⟩, uses)
          some (read.mapError (.node h.title))

/-- A pointer with the title of the node that it stands in. -/
structure NodePointer where
  title : String
  use : PointerUse

/-- What the blocks of a script have given. -/
structure Reading where
  dialogue : Dialogue
  pointers : List NodePointer
  errors : List DialogueError

def Reading.step (r : Reading) (b : NodeLines) : Reading :=
  match nodeOf r.dialogue.name r.dialogue.hasNode b with
  | none => r
  | some (.error e) => { r with errors := r.errors ++ [e] }
  | some (.ok (node, uses)) =>
      { r with
        dialogue := { r.dialogue with nodes := r.dialogue.nodes ++ [node] }
        pointers := r.pointers ++ uses.map (⟨node.title, ·⟩) }

/-- Whether a pointer leads to a node that the dialogue does not have. The end needs no node. -/
def isDangling (d : Dialogue) : Pointer → Bool
  | .internal node => !Pointer.isEndId node && !d.hasNode node
  | .external .. => false

def danglingError (p : NodePointer) : DialogueError :=
  .node (some p.title) ((Cause.danglingPointer p.use.pointer.toScript).placedAt p.use.position)

/-- What is wrong with a dialogue as a whole. -/
def wholeErrors (d : Dialogue) (pointers : List NodePointer) (lineCount : Nat) :
    List DialogueError :=
  (if d.start?.isNone then [.script (Cause.noStart.placedAt ⟨lineCount + 1, 1⟩)] else []) ++
    (pointers.filter fun p => isDangling d p.use.pointer).map danglingError

def nameErrors (name : String) : List DialogueError :=
  if isDialogueName name then [] else [.script ⟨.invalidDialogueName name, none⟩]

/-- The dialogue that some lines form, or all errors in them; a fatal error stands alone. -/
def ofLines (name : String) (lines : List (List Char)) : Except (List DialogueError) Dialogue :=
  let read := (blocks 1 lines).foldl Reading.step ⟨⟨name, []⟩, [], []⟩
  match read.errors.find? (·.isFatal) with
  | some e => .error [e]
  | none =>
      let errors :=
        if read.errors.isEmpty then
          nameErrors name ++ wholeErrors read.dialogue read.pointers lines.length
        else nameErrors name ++ read.errors
      if errors.isEmpty then .ok read.dialogue else .error errors

/-- The dialogue that a text forms, or the errors in it. -/
def ofText (name text : String) : Except (List DialogueError) Dialogue :=
  ofLines name ((Line.ofChars text.toList).map Line.content)

/-- The report of the errors in a script. -/
def errorReport (name : String) (errors : List DialogueError) : String :=
  String.intercalate "\n"
    (("Failed to parse dialogue \"" ++ name ++ "\":") :: errors.map fun e => "  " ++ e.message)

end Dialogue
end Parley
