import Parley.Json.Basic
import Parley.Number.Notation
import Parley.Text.Visible

/-!
Documents as JSON text: in one line without blanks, or over several lines with an indent of two. The
numbers that JSON does not know are written as `NaN`, `Infinity` and `-Infinity`.
-/
namespace Parley.Json

/-- Which characters of a string are written as escapes: those that JSON demands, or all outside
printable seven-bit text. -/
inductive Escaping where
  | required
  | ascii
  deriving DecidableEq

def unitEscape (n : Nat) : List Char := ['\\', 'u'] ++ hexText 4 n

/-- A code point above sixteen bits is written as two surrogates. -/
def codeEscape (c : Char) : List Char :=
  let n := c.toNat
  if n < 0x10000 then unitEscape n
  else unitEscape (0xd800 + (n - 0x10000) / 0x400) ++ unitEscape (0xdc00 + (n - 0x10000) % 0x400)

def charChars (escaping : Escaping) (c : Char) : List Char :=
  if c = '"' then ['\\', '"']
  else if c = '\\' then ['\\', '\\']
  else if c = '\n' then ['\\', 'n']
  else if c = '\r' then ['\\', 'r']
  else if c = '\t' then ['\\', 't']
  else if c = '\x0c' then ['\\', 'f']
  else if c = '\x08' then ['\\', 'b']
  else if c.toNat < 0x20 then codeEscape c
  else if escaping = .ascii ∧ 0x7e < c.toNat then codeEscape c
  else [c]

def runeChars (escaping : Escaping) : Rune → List Char
  | .char c => charChars escaping c
  | .half n => unitEscape (Rune.half n).code

def stringText (escaping : Escaping) (s : List Rune) : String :=
  String.ofList (['"'] ++ s.flatMap (runeChars escaping) ++ ['"'])

def floatText : Binary64 → String
  | .nan => "NaN"
  | .infinite false => "Infinity"
  | .infinite true => "-Infinity"
  | x => x.text

/-- The text of a document without parts. -/
def scalarText (escaping : Escaping) : Json → String
  | .null | .list _ | .map _ => "null"
  | .bool b => if b then "true" else "false"
  | .int n => intText n
  | .float x => floatText x
  | .text s => stringText escaping s

mutual

def compact (escaping : Escaping) : Json → String
  | .list items => "[" ++ compactItems escaping items ++ "]"
  | .map entries => "\x7b" ++ compactEntries escaping entries ++ "\x7d"
  | scalar => scalarText escaping scalar

def compactItems (escaping : Escaping) : List Json → String
  | [] => ""
  | [item] => compact escaping item
  | item :: rest => compact escaping item ++ "," ++ compactItems escaping rest

def compactEntries (escaping : Escaping) : List (List Rune × Json) → String
  | [] => ""
  | [(key, item)] => stringText escaping key ++ ":" ++ compact escaping item
  | (key, item) :: rest =>
      stringText escaping key ++ ":" ++ compact escaping item ++ "," ++
        compactEntries escaping rest

end

def newLine (depth : Nat) : String := String.ofList ('\n' :: List.replicate (2 * depth) ' ')

mutual

/-- The text over several lines, each part on a line of its own. -/
def indented (escaping : Escaping) (depth : Nat) : Json → String
  | .list [] => "[]"
  | .map [] => "\x7b\x7d"
  | .list items =>
      "[" ++ newLine (depth + 1) ++ indentedItems escaping (depth + 1) items ++ newLine depth ++ "]"
  | .map entries =>
      "\x7b" ++ newLine (depth + 1) ++ indentedEntries escaping (depth + 1) entries ++
        newLine depth ++ "\x7d"
  | scalar => scalarText escaping scalar

def indentedItems (escaping : Escaping) (depth : Nat) : List Json → String
  | [] => ""
  | [item] => indented escaping depth item
  | item :: rest =>
      indented escaping depth item ++ "," ++ newLine depth ++ indentedItems escaping depth rest

def indentedEntries (escaping : Escaping) (depth : Nat) : List (List Rune × Json) → String
  | [] => ""
  | [(key, item)] => stringText escaping key ++ ": " ++ indented escaping depth item
  | (key, item) :: rest =>
      stringText escaping key ++ ": " ++ indented escaping depth item ++ "," ++ newLine depth ++
        indentedEntries escaping depth rest

end

def codes (s : List Rune) : List Nat := s.map Rune.code

def keyBefore (a b : List Rune × Json) : Bool := decide (codes a.1 < codes b.1 ∨ a.1 = b.1)

mutual

/-- The document with the keys of all its maps in the order of their codes. -/
def sorted : Json → Json
  | .list items => .list (sortedItems items)
  | .map entries => .map ((sortedEntries entries).mergeSort keyBefore)
  | scalar => scalar

def sortedItems : List Json → List Json
  | [] => []
  | item :: rest => sorted item :: sortedItems rest

def sortedEntries : List (List Rune × Json) → List (List Rune × Json)
  | [] => []
  | (key, item) :: rest => (key, sorted item) :: sortedEntries rest

end

end Parley.Json
