import Parley.Json.Basic
import Parley.Number.Numeral

/-!
Reading JSON text. `NaN`, `Infinity` and `-Infinity` are numbers; of two entries with one key the
later counts; the escapes of the two halves of a surrogate pair stand for one character.
-/
namespace Parley.Json

/-- Why a text is no document. -/
inductive Defect where
  | malformed
  /-- A whole number has too many digits. -/
  | longNumber
  deriving DecidableEq

/-- Reads something from the start of a text and gives what is left of it. -/
abbrev Reader (α : Type) := List Char → Except Defect (α × List Char)

/-- Takes a token from the start of a text, if there is one. -/
abbrev Scanner (α : Type) := List Char → Option (α × List Char)

def malformed {α : Type} : Except Defect α := .error .malformed

def expected {α : Type} : Option α → Except Defect α
  | some a => .ok a
  | none => malformed

def isSpace (c : Char) : Bool := c == ' ' || c == '\t' || c == '\n' || c == '\r'

def skipSpace (cs : List Char) : List Char := cs.dropWhile isSpace

/-- The digits of a whole number. It starts with a zero only if it is zero. -/
def wholeDigits : Scanner (List Nat)
  | '0' :: rest => some ([0], rest)
  | cs =>
      let (digits, rest) := Numeral.digitRun cs
      if digits.isEmpty then none else some (digits, rest)

def fraction? : Scanner (List Nat)
  | '.' :: rest =>
      let (digits, rest) := Numeral.digitRun rest
      if digits.isEmpty then none else some (digits, rest)
  | _ => none

def exponent? : Scanner Int
  | c :: rest =>
      if c = 'e' ∨ c = 'E' then
        let (negative, rest) := Numeral.sign rest
        let (digits, rest) := Numeral.digitRun rest
        let n : Int := digitsValue digits
        if digits.isEmpty then none else some (if negative then -n else n, rest)
      else none
  | [] => none

/-- A part that may be missing. -/
def optional {α : Type} (part : Scanner α) (cs : List Char) : Option α × List Char :=
  match part cs with
  | some (a, rest) => (some a, rest)
  | none => (none, cs)

/-- A number without sign. It is a whole number if it has neither a fraction nor an exponent. -/
def unsigned (negative : Bool) : Reader Json := fun cs => do
  let (whole, rest) ← expected (wholeDigits cs)
  let (part, rest) := optional fraction? rest
  let (power, rest) := optional exponent? rest
  if part.isNone && power.isNone then
    if maxDigits < whole.length then .error .longNumber
    let n : Int := digitsValue whole
    return (.int (if negative then -n else n), rest)
  else
    let part := part.getD []
    let d : Decimal := ⟨digitsValue (whole ++ part), power.getD 0 - part.length⟩
    return (.float (d.nearest negative), rest)

def hexDigit? (c : Char) : Option Nat :=
  if '0' ≤ c ∧ c ≤ '9' then some (c.toNat - '0'.toNat)
  else if 'a' ≤ c ∧ c ≤ 'f' then some (c.toNat - 'a'.toNat + 10)
  else if 'A' ≤ c ∧ c ≤ 'F' then some (c.toNat - 'A'.toNat + 10)
  else none

def hexNumber? (cs : List Char) : Option Nat :=
  cs.foldlM (fun n c => (hexDigit? c).map (16 * n + ·)) 0

/-- The character that a backslash and another character stand for. -/
def shortEscape? : Char → Option Char
  | '"' => some '"'
  | '\\' => some '\\'
  | '/' => some '/'
  | 'b' => some '\x08'
  | 'f' => some '\x0c'
  | 'n' => some '\n'
  | 'r' => some '\r'
  | 't' => some '\t'
  | _ => none

/-- The codes in a string, behind its opening quote. -/
def stringCodes : Scanner (List Nat)
  | [] => none
  | '"' :: rest => some ([], rest)
  | '\\' :: 'u' :: a :: b :: c :: d :: rest => do
      let code ← hexNumber? [a, b, c, d]
      let (codes, rest) ← stringCodes rest
      return (code :: codes, rest)
  | '\\' :: c :: rest => do
      let c ← shortEscape? c
      let (codes, rest) ← stringCodes rest
      return (c.toNat :: codes, rest)
  | c :: rest => do
      if c.toNat < 0x20 || c == '\\' then none
      let (codes, rest) ← stringCodes rest
      return (c.toNat :: codes, rest)

def isHighHalf (n : Nat) : Bool := 0xd800 ≤ n && n < 0xdc00

def isLowHalf (n : Nat) : Bool := 0xdc00 ≤ n && n < 0xe000

/-- The runes of some codes, the two halves of a surrogate pair being one character. -/
def runesOfCodes : List Nat → List Rune
  | high :: low :: rest =>
      if isHighHalf high && isLowHalf low then
        .char (Char.ofNat (0x10000 + (high - 0xd800) * 0x400 + (low - 0xdc00))) ::
          runesOfCodes rest
      else .ofCode high :: runesOfCodes (low :: rest)
  | [code] => [.ofCode code]
  | [] => []

def string : Reader (List Rune) := fun cs => do
  let (codes, rest) ← expected (stringCodes cs)
  return (runesOfCodes codes, rest)

/-- One item or more with commas between them, up to a closing bracket; `fuel` bounds how
many. -/
def separated {α : Type} (item : Reader α) (bracket : Char) : Nat → Reader (List α)
  | 0 => fun _ => malformed
  | fuel + 1 => fun cs => do
      let (first, rest) ← item (skipSpace cs)
      match skipSpace rest with
      | ',' :: rest =>
          let (others, rest) ← separated item bracket fuel rest
          return (first :: others, rest)
      | c :: rest => if c = bracket then return ([first], rest) else malformed
      | [] => malformed

/-- Items behind an opening bracket, none at all included. -/
def bracketed {α : Type} (item : Reader α) (bracket : Char) : Reader (List α) := fun cs =>
  match skipSpace cs with
  | [] => malformed
  | c :: rest => if c = bracket then .ok ([], rest) else separated item bracket cs.length cs

def entry (inner : Reader Json) : Reader (List Rune × Json)
  | '"' :: cs => do
      let (key, rest) ← string cs
      match skipSpace rest with
      | ':' :: rest =>
          let (item, rest) ← inner (skipSpace rest)
          return ((key, item), rest)
      | _ => malformed
  | _ => malformed

/-- A document whose parts are read by `inner`. -/
def outer (inner : Reader Json) : Reader Json
  | '"' :: rest => do
      let (s, rest) ← string rest
      return (.text s, rest)
  | '[' :: rest => do
      let (items, rest) ← bracketed inner ']' rest
      return (.list items, rest)
  | '\x7b' :: rest => do
      let (entries, rest) ← bracketed (entry inner) '\x7d' rest
      return (.map (Assoc.ofList entries), rest)
  | 'n' :: 'u' :: 'l' :: 'l' :: rest => .ok (.null, rest)
  | 't' :: 'r' :: 'u' :: 'e' :: rest => .ok (.bool true, rest)
  | 'f' :: 'a' :: 'l' :: 's' :: 'e' :: rest => .ok (.bool false, rest)
  | 'N' :: 'a' :: 'N' :: rest => .ok (.float .nan, rest)
  | 'I' :: 'n' :: 'f' :: 'i' :: 'n' :: 'i' :: 't' :: 'y' :: rest =>
      .ok (.float (.infinite false), rest)
  | '-' :: 'I' :: 'n' :: 'f' :: 'i' :: 'n' :: 'i' :: 't' :: 'y' :: rest =>
      .ok (.float (.infinite true), rest)
  | '-' :: rest => unsigned true rest
  | cs => unsigned false cs

/-- A document with brackets nested less deep than `depth`. -/
def ofDepth : Nat → Reader Json
  | 0 => fun _ => malformed
  | depth + 1 => outer (ofDepth depth)

/-- The document that some characters write from end to end. Brackets cannot be nested deeper than
there are characters. -/
def ofChars (cs : List Char) : Except Defect Json := do
  let (document, rest) ← ofDepth (cs.length + 1) (skipSpace cs)
  if (skipSpace rest).isEmpty then return document else malformed

def parse (s : String) : Except Defect Json := ofChars s.toList

end Parley.Json
