import Parley.Expr.Basic
import Parley.Number.Numeral
import Parley.Text.Name
import Parley.Text.Position

/-!
The terminals of expressions and how a text is cut into them. Which terminal a text starts with
depends on the terminal in front: where an operand is due, `!` stands alone and a word may start
with `true`, `false` or `null`; where an operator is due, a word may start with `in`; behind a
point, every word is a name.
-/
namespace Parley

inductive Bracket where
  | round
  | square
  | curly
  deriving DecidableEq

inductive Terminal where
  | var (name : String)
  | name (name : String)
  | literal (l : Literal)
  | operator (op : BinaryOp)
  | bang
  | equals
  | dot
  | comma
  | colon
  | opening (bracket : Bracket)
  | closing (bracket : Bracket)
  deriving DecidableEq

structure Lexeme where
  terminal : Terminal
  text : String
  position : Position
  deriving DecidableEq

/-- What may come next. -/
inductive Expected where
  | operand
  | operator
  | member
  deriving DecidableEq

def Terminal.expected : Terminal → Expected
  | var _ | name _ | literal _ | closing _ => .operator
  | dot => .member
  | _ => .operand

namespace Terminal

/-- How many characters there are up to the closing quote, which counts. A backslash takes the
character behind it along, but not a line feed. -/
def quotedLength? (quote : Char) : List Char → Option Nat
  | [] => none
  | ['\\'] => none
  | '\\' :: c :: rest => if c = '\n' then none else (quotedLength? quote rest).map (· + 2)
  | c :: rest => if c = quote then some 1 else (quotedLength? quote rest).map (· + 1)

def unescape : List Char → List Char
  | [] => []
  | '\\' :: c :: rest =>
      (if c = 'n' then '\n' else if c = 't' then '\t' else if c = 'r' then '\r' else c) ::
        unescape rest
  | c :: rest => c :: unescape rest

/-- How many digits a text starts with. -/
def digitCount (cs : List Char) : Nat := (cs.takeWhile isDecimalDigit).length

/-- The length of a point and the digits behind it, zero without such digits. -/
def fractionLength : List Char → Nat
  | '.' :: rest => if digitCount rest = 0 then 0 else digitCount rest + 1
  | _ => 0

def exponentLength : List Char → Nat
  | c :: rest =>
      if c = 'e' ∨ c = 'E' then
        let signed := match rest with
          | s :: _ => if s = '+' ∨ s = '-' then 1 else 0
          | [] => 0
        let digits := digitCount (rest.drop signed)
        if digits = 0 then 0 else 1 + signed + digits
      else 0
  | [] => 0

def numberLength (cs : List Char) : Nat :=
  let whole := digitCount cs
  let part := fractionLength (cs.drop whole)
  whole + part + exponentLength (cs.drop (whole + part))

/-- The number that a numeral writes: whole without a point and an exponent. -/
def numberLiteral (cs : List Char) : Literal :=
  let plain := Numeral.plainDigits cs
  if cs.any fun c => c == '.' || c == 'e' || c == 'E' then
    .float (((Numeral.decimal? plain).map (·.nearest false)).getD .nan)
  else .int (digitsValue (Numeral.digitRun plain).1)

/-- The word `keyword` at the start of a text, with the terminal that it is. -/
def keyword? (cs : List Char) (keywords : List (String × Terminal)) : Option (Terminal × Nat) :=
  (keywords.find? fun (word, _) => word.toList.isPrefixOf cs).map fun (word, t) =>
    (t, word.length)

def word (expected : Expected) (cs : List Char) : Terminal × Nat :=
  let special := match expected with
    | .operand => keyword? cs [("true", literal (.bool true)), ("false", literal (.bool false)),
        ("null", literal .null)]
    | .operator => keyword? cs [("in", operator .among)]
    | .member => none
  special.getD
    (name (String.ofList (cs.takeWhile isNameChar)), (cs.takeWhile isNameChar).length)

/-- A terminal of one or two signs. -/
def sign? (expected : Expected) (c : Char) (next : Option Char) : Option (Terminal × Nat) :=
  if c = '=' then
    if next = some '=' then some (operator .eq, 2) else some (equals, 1)
  else if c = '!' then
    if next = some '=' ∧ expected ≠ .operand then some (operator .ne, 2) else some (bang, 1)
  else if c = '<' then
    if next = some '=' then some (operator .le, 2) else some (operator .lt, 1)
  else if c = '>' then
    if next = some '=' then some (operator .ge, 2) else some (operator .gt, 1)
  else if c = '|' then if next = some '|' then some (operator .or, 2) else none
  else if c = '&' then if next = some '&' then some (operator .and, 2) else none
  else if c = '+' then some (operator .add, 1)
  else if c = '-' then some (operator .sub, 1)
  else if c = '*' then some (operator .mul, 1)
  else if c = '/' then some (operator .div, 1)
  else if c = '%' then some (operator .mod, 1)
  else if c = '.' then some (dot, 1)
  else if c = ',' then some (comma, 1)
  else if c = ':' then some (colon, 1)
  else if c = '(' then some (opening .round, 1)
  else if c = ')' then some (closing .round, 1)
  else if c = '[' then some (opening .square, 1)
  else if c = ']' then some (closing .square, 1)
  else if c = '\x7b' then some (opening .curly, 1)
  else if c = '\x7d' then some (closing .curly, 1)
  else none

/-- The terminal that a text starts with, and its length. -/
def scan? (expected : Expected) (c : Char) (rest : List Char) : Option (Terminal × Nat) :=
  if c = '$' then
    let written := rest.takeWhile isNameChar
    if isName written then some (var (String.ofList written), written.length + 1) else none
  else if c = '"' ∨ c = '\'' then
    (quotedLength? c rest).map fun n =>
      (literal (.text (String.ofList (unescape (rest.take (n - 1))))), n + 1)
  else if isDecimalDigit c then
    let n := numberLength (c :: rest)
    some (literal (numberLiteral ((c :: rest).take n)), n)
  else if isNameStart c then some (word expected (c :: rest))
  else sign? expected c rest.head?

end Terminal

def isExprBlank (c : Char) : Bool := c == ' ' || c == '\t' || c == '\x0c' || c == '\r' || c == '\n'

/-- The terminals of a text up to its end or to the first character that starts none. -/
structure Lexemes where
  lexemes : List Lexeme
  stop : Option (Char × Position)

/-- Cuts a text into terminals. A terminal takes its first character and what follows of it. -/
def Lexemes.ofChars (expected : Expected) (position : Position) : List Char → Lexemes
  | [] => ⟨[], none⟩
  | c :: rest =>
      if isExprBlank c then ofChars expected (position.next c) rest
      else match Terminal.scan? expected c rest with
        | none => ⟨[], some (c, position)⟩
        | some (terminal, length) =>
            let text := c :: rest.take (length - 1)
            let following :=
              ofChars terminal.expected (position.after text) (rest.drop (length - 1))
            { following with
              lexemes := ⟨terminal, String.ofList text, position⟩ :: following.lexemes }
  termination_by cs => cs.length
  decreasing_by all_goals simp only [List.length_drop, List.length_cons]; omega

end Parley
