import Parley.Expr.Basic
import Parley.Number.Notation

/-!
The text of an expression, with parentheses only where the binding of the operators asks for them.
-/
namespace Parley

def quoteChar (c : Char) : List Char :=
  if c = '\\' then ['\\', '\\']
  else if c = '"' then ['\\', '"']
  else if c = '\n' then ['\\', 'n']
  else if c = '\t' then ['\\', 't']
  else [c]

/-- A text between double quotes. -/
def quoteText (s : String) : String :=
  String.ofList (['"'] ++ s.toList.flatMap quoteChar ++ ['"'])

def Literal.toText : Literal → String
  | .null => "null"
  | .bool b => if b then "true" else "false"
  | .int n => natText n
  | .float x => x.text
  | .text s => quoteText s

namespace Expr

/-- Puts parentheses around the text of an expression that binds less than demanded. -/
def wrap (demanded : Nat) (e : Expr) (text : String) : String :=
  if e.level < demanded then "(" ++ text ++ ")" else text

/-- The least level of a left operand: comparisons do not chain, other operators group to the
left. -/
def leftLevel (op : BinaryOp) : Nat := if op.level = 4 then 5 else op.level

mutual

def toText : Expr → String
  | literal l => l.toText
  | var name => "$" ++ name
  | list items => "[" ++ textOfItems items ++ "]"
  | map entries => "\x7b" ++ textOfEntries entries ++ "\x7d"
  | unary op operand => op.symbol ++ wrap 7 operand (toText operand)
  | binary op left right =>
      wrap (leftLevel op) left (toText left) ++ " " ++ op.symbol ++ " " ++
        wrap (op.level + 1) right (toText right)
  | index target position => wrap 8 target (toText target) ++ "[" ++ toText position ++ "]"
  | member target name => wrap 8 target (toText target) ++ "." ++ name
  | assign name value => "$" ++ name ++ " = " ++ toText value

def textOfItems : List Expr → String
  | [] => ""
  | [item] => toText item
  | item :: rest => toText item ++ ", " ++ textOfItems rest

def textOfEntries : List (Expr × Expr) → String
  | [] => ""
  | [(key, item)] => toText key ++ ": " ++ toText item
  | (key, item) :: rest => toText key ++ ": " ++ toText item ++ ", " ++ textOfEntries rest

end

end Expr
end Parley
