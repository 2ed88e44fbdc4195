import Parley.Expr.Terminal
import Parley.Text.Blank
import Parley.Text.Visible

/-!
From terminals to expressions. Every parser takes terminals from the front of a list and refuses
with the terminals from the first one on that nothing allowed can start with.
-/
namespace Parley

abbrev Parser (α : Type) := List Lexeme → Except (List Lexeme) (α × List Lexeme)

namespace Expr

/-- Further operands behind a first one, joined by operators of one level and grouped to the
left; `fuel` bounds how many. -/
def chainRest (level : Nat) (operand : Parser Expr) : Nat → Expr → Parser Expr
  | fuel + 1, left, all@(⟨.operator op, _, _⟩ :: rest) =>
      if op.level = level then do
        let (right, rest) ← operand rest
        chainRest level operand fuel (binary op left right) rest
      else .ok (left, all)
  | _, left, rest => .ok (left, rest)

def chain (level : Nat) (operand : Parser Expr) : Parser Expr := fun ts => do
  let (left, rest) ← operand ts
  chainRest level operand rest.length left rest

/-- An operand, or two with a comparison between them. -/
def comparison (operand : Parser Expr) : Parser Expr := fun ts => do
  let (left, rest) ← operand ts
  match rest with
  | ⟨.operator op, _, _⟩ :: tail =>
      if op.level = 4 then do
        let (right, rest) ← operand tail
        return (binary op left right, rest)
      else return (left, rest)
  | _ => return (left, rest)

def unaryChain (operand : Parser Expr) : Parser Expr
  | ⟨.bang, _, _⟩ :: rest => do
      let (e, rest) ← unaryChain operand rest
      return (unary .not e, rest)
  | ⟨.operator .sub, _, _⟩ :: rest => do
      let (e, rest) ← unaryChain operand rest
      return (unary .neg e, rest)
  | ts => operand ts

def expect (t : Terminal) : Parser Unit
  | l :: rest => if l.terminal = t then .ok ((), rest) else .error (l :: rest)
  | [] => .error []

/-- Indexes and members behind an expression; `fuel` bounds how many. -/
def accesses (inner : Parser Expr) : Nat → Expr → Parser Expr
  | fuel + 1, target, ⟨.opening .square, _, _⟩ :: rest => do
      let (position, rest) ← inner rest
      let ((), rest) ← expect (.closing .square) rest
      accesses inner fuel (index target position) rest
  | fuel + 1, target, ⟨.dot, _, _⟩ :: ⟨.name name, _, _⟩ :: rest =>
      accesses inner fuel (member target name) rest
  | _ + 1, _, ⟨.dot, _, _⟩ :: rest => .error rest
  | _, target, rest => .ok (target, rest)

/-- One item or more with commas between them, up to a closing bracket; `fuel` bounds how
many. -/
def separated {α : Type} (item : Parser α) (bracket : Bracket) : Nat → Parser (List α)
  | 0 => fun ts => .error ts
  | fuel + 1 => fun ts => do
      let (first, rest) ← item ts
      match rest with
      | ⟨.comma, _, _⟩ :: rest => do
          let (others, rest) ← separated item bracket fuel rest
          return (first :: others, rest)
      | rest => do
          let ((), rest) ← expect (.closing bracket) rest
          return ([first], rest)

/-- Items between brackets that have already been opened, none at all included. -/
def bracketed {α : Type} (item : Parser α) (bracket : Bracket) : Parser (List α)
  | [] => .error []
  | l :: rest =>
      if l.terminal = .closing bracket then .ok ([], rest)
      else separated item bracket (rest.length + 1) (l :: rest)

def pair (inner : Parser Expr) : Parser (Expr × Expr) := fun ts => do
  let (key, rest) ← inner ts
  let ((), rest) ← expect .colon rest
  let (item, rest) ← inner rest
  return ((key, item), rest)

def atom (inner : Parser Expr) : Parser Expr
  | ⟨.var name, _, _⟩ :: rest => .ok (var name, rest)
  | ⟨.literal l, _, _⟩ :: rest => .ok (literal l, rest)
  | ⟨.opening .square, _, _⟩ :: rest => do
      let (items, rest) ← bracketed inner .square rest
      return (list items, rest)
  | ⟨.opening .curly, _, _⟩ :: rest => do
      let (entries, rest) ← bracketed (pair inner) .curly rest
      return (map entries, rest)
  | ⟨.opening .round, _, _⟩ :: rest => do
      let (e, rest) ← inner rest
      let ((), rest) ← expect (.closing .round) rest
      return (e, rest)
  | ts => .error ts

def accessed (inner : Parser Expr) : Parser Expr := fun ts => do
  let (target, rest) ← atom inner ts
  accesses inner rest.length target rest

/-- An operand of each level in turn, from the tightest to the loosest. -/
def operation (inner : Parser Expr) : Parser Expr :=
  chain 2 (chain 3 (comparison (chain 5 (chain 6 (unaryChain (accessed inner))))))

/-- Assignments group to the right, and only a variable can be assigned to. -/
def assignment (inner : Parser Expr) : Parser Expr
  | ⟨.var name, _, _⟩ :: ⟨.equals, _, _⟩ :: rest => do
      let (value, rest) ← assignment inner rest
      return (assign name value, rest)
  | ts => operation inner ts

/-- An expression with brackets nested less deep than `depth`. -/
def ofDepth : Nat → Parser Expr
  | 0 => fun ts => .error ts
  | depth + 1 => assignment (ofDepth depth)

/-- The expression that some terminals form from end to end, or the terminals from the first one
on that does not fit. Brackets cannot be nested deeper than there are terminals. -/
def ofLexemes (ts : List Lexeme) : Except (List Lexeme) Expr := do
  let (e, rest) ← ofDepth (ts.length + 1) ts
  if rest.isEmpty then return e else .error rest

/-- Why a text is no expression. -/
inductive Defect where
  | empty
  | unfinished
  | token (text : String)
  | character (c : Char)
  /-- A whole number has too many digits. -/
  | longNumber
  deriving DecidableEq

structure ParseError where
  defect : Defect
  position : Position
  deriving DecidableEq

def Defect.message : Defect → String
  | empty => "Empty expression"
  | unfinished => "Unexpected end of expression"
  | token text => "Unexpected token: " ++ text
  | character c => "Unexpected character: " ++ quotedChar c
  | longNumber => "Number with more than " ++ natText maxDigits ++ " digits"

def ParseError.message (e : ParseError) : String := e.defect.message ++ e.position.mark

/-- The defect where the terminals of a text come to an end too early. -/
def atStop (text : List Char) : Option (Char × Position) → ParseError
  | none => ⟨.unfinished, Position.start.after text⟩
  | some (c, position) => ⟨.character c, position⟩

/-- Whether a terminal is a whole number with more digits than are read. -/
def isLongNumber (l : Lexeme) : Bool :=
  match l.terminal with
  | .literal (.int _) => maxDigits < l.text.length
  | _ => false

/-- Whether some expression goes on with a terminal behind a number. -/
def followsNumber : Terminal → Bool
  | .operator _ | .dot | .comma | .colon | .closing _ | .opening .square => true
  | _ => false

/-- The place of the first number with too many digits that is read before the parser refuses: one
of the first `taken` terminals, with something behind it that may follow a number. -/
def longNumber? (atEnd : Bool) : Nat → List Lexeme → Option Position
  | taken + 1, l :: rest =>
      if isLongNumber l && ((rest.head?.map fun next => followsNumber next.terminal).getD atEnd) then
        some l.position
      else longNumber? atEnd taken rest
  | _, _ => none

def parseChars (text : List Char) : Except ParseError Expr :=
  if text.all isBlank then .error ⟨.empty, .start⟩
  else
    let ⟨lexemes, stop⟩ := Lexemes.ofChars .operand .start text
    let result := ofLexemes lexemes
    let refused := match result with
      | .error rest => rest.length
      | .ok _ => 0
    match longNumber? stop.isNone (lexemes.length - refused) lexemes, result with
    | some position, _ => .error ⟨.longNumber, position⟩
    | none, .error (l :: _) => .error ⟨.token l.text, l.position⟩
    | none, .error [] => .error (atStop text stop)
    | none, .ok e => if stop.isNone then .ok e else .error (atStop text stop)

def parse (text : String) : Except ParseError Expr := parseChars text.toList

end Expr
end Parley
