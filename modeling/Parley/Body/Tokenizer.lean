import Parley.Body.Token
import Parley.Text.Lines
import Parley.Text.Name

/-!
Cutting the lines of a body into tokens. A command or a reply may go on over several lines, so the
markers that are open at the end of a line are carried to the next.
-/
namespace Parley

/-- The markers that are open. -/
structure Tokenizer where
  inCommand : Bool
  inReply : Bool
  deriving DecidableEq

namespace Tokenizer

def initial : Tokenizer := ⟨false, false⟩

/-- The name that a text starts with, empty if it starts with none. -/
def nameAt : List Char → List Char
  | [] => []
  | c :: rest => if isNameStart c then c :: rest.takeWhile isNameChar else []

/-- The parts of a quoted text up to its closing quote and how many characters they take, the
quote included. -/
def quotedParts? : List Char → Option (List Part × Nat)
  | [] => none
  | '"' :: _ => some ([], 1)
  | ['\\'] => none
  | '\\' :: c :: rest =>
      (quotedParts? rest).map fun (parts, n) => (.literal (String.ofList [c]) :: parts, n + 2)
  | '$' :: rest =>
      let name := nameAt rest
      if name.isEmpty then
        (quotedParts? rest).map fun (parts, n) => (.literal "$" :: parts, n + 1)
      else
        (quotedParts? (rest.drop name.length)).map fun (parts, n) =>
          (.var (String.ofList name) :: parts, n + name.length + 1)
  | c :: rest =>
      (quotedParts? rest).map fun (parts, n) => (.literal (String.ofList [c]) :: parts, n + 1)
  termination_by cs => cs.length
  decreasing_by all_goals simp only [List.length_drop, List.length_cons]; omega

/-- A piece of a line: a stretch of text with the value it has, or a token of another kind. -/
inductive Piece where
  | plain (source value : List Char)
  | mark (content : Content) (source : List Char)
  deriving DecidableEq

def Piece.source : Piece → List Char
  | plain source _ => source
  | mark _ source => source

inductive Step where
  /-- A piece that takes some characters beyond the first, and the markers open behind it. -/
  | piece (content : Option Content) (value : List Char) (further : Nat) (after : Tokenizer)
  | comment
  | defect (cause : Cause)

def plainStep (state : Tokenizer) (value : List Char) (further : Nat) : Step :=
  .piece none value further state

def markStep (state : Tokenizer) (content : Content) (further : Nat) : Step :=
  .piece (some content) [] further state

/-- What a line goes on with. -/
def step (state : Tokenizer) (c : Char) (rest : List Char) : Step :=
  let pair (d : Char) : Bool := c == d && rest.head? == some d
  if c = '$' then
    let name := nameAt rest
    if name.isEmpty then plainStep state ['$'] 0
    else markStep state (.var (String.ofList name)) name.length
  else if c = '\\' then plainStep state (rest.take 1) 1
  else if pair '/' then .comment
  else if pair '<' then
    if state.inCommand then .defect .commandInCommand
    else markStep { state with inCommand := true } .commandStart 1
  else if pair '>' then
    if state.inCommand then markStep { state with inCommand := false } .commandEnd 1
    else .defect .commandEndAlone
  else if pair '[' && !state.inCommand then
    if state.inReply then .defect .replyInReply
    else markStep { state with inReply := true } .replyStart 1
  else if pair ']' && !state.inCommand then
    if state.inReply then markStep { state with inReply := false } .replyEnd 1
    else .defect .replyEndAlone
  else if c = '"' && state.inCommand then
    match quotedParts? rest with
    | some (parts, n) => markStep state (.quoted (Template.ofParts parts)) n
    | none => .defect .openQuote
  else if c = '|' && state.inReply && !state.inCommand then markStep state .separator 0
  else plainStep state [c] 0

/-- The pieces of a line from a place on, and the markers open at its end or where it is found
defective. -/
def pieces (state : Tokenizer) (position : Position) :
    List Char → Except ScriptError (List Piece) × Tokenizer
  | [] => (.ok [], state)
  | c :: rest =>
      match step state c rest with
      | .comment => (.ok [], state)
      | .defect cause => (.error (cause.placedAt position), state)
      | .piece content value further after =>
          let source := c :: rest.take further
          let piece := match content with
            | some content => Piece.mark content source
            | none => Piece.plain source value
          let (following, final) := pieces after
            ⟨position.line, position.column + source.length⟩ (rest.drop further)
          (following.map (piece :: ·), final)
  termination_by cs => cs.length
  decreasing_by simp only [List.length_drop, List.length_cons]; omega

/-- Joins stretches of text that stand side by side. -/
def join : List Piece → List Piece
  | [] => []
  | .mark content source :: rest => .mark content source :: join rest
  | .plain source value :: rest =>
      match join rest with
      | .plain more others :: following => .plain (source ++ more) (value ++ others) :: following
      | following => .plain source value :: following

/-- The tokens of some pieces; a stretch of text without a value is none. -/
def assemble (position : Position) : List Piece → List Token
  | [] => []
  | piece :: rest =>
      let following :=
        assemble ⟨position.line, position.column + piece.source.length⟩ rest
      match piece with
      | .mark content source => ⟨content, String.ofList source, position⟩ :: following
      | .plain source value =>
          if value.isEmpty then following
          else ⟨.text (String.ofList value), String.ofList source, position⟩ :: following

/-- The tokens of a line, and the markers open behind it. -/
def readLine (state : Tokenizer) (number : Nat) (line : List Char) :
    Except ScriptError (List Token) × Tokenizer :=
  let (read, final) := pieces state ⟨number, 1⟩ line
  (read.map fun found => assemble ⟨number, 1⟩ (join found), final)

/-- The tokens of each of some lines numbered from `number` on, up to the first one at fault. -/
def readEach (state : Tokenizer) (number : Nat) :
    List (List Char) → List (Except ScriptError (List Token)) × Tokenizer
  | [] => ([], state)
  | line :: rest =>
      match readLine state number line with
      | (.error e, final) => ([.error e], final)
      | (.ok tokens, after) =>
          let (following, final) := readEach after (number + 1) rest
          (.ok tokens :: following, final)

/-- The tokens of some lines one after the other. -/
def readLines (state : Tokenizer) (number : Nat) (lines : List (List Char)) :
    Except ScriptError (List Token) × Tokenizer :=
  let (read, final) := readEach state number lines
  ((read.mapM id).map List.flatten, final)

/-- The tokens of a text. -/
def readText (text : String) : Except ScriptError (List Token) :=
  (readLines .initial 1 ((Line.ofChars text.toList).map Line.full)).1

end Tokenizer
end Parley
