/-!
Places in a text, counted from line 1 and column 1. Only the line feed starts a new line.
-/
namespace Parley

structure Position where
  line : Nat
  column : Nat
  deriving DecidableEq

namespace Position

def start : Position := ⟨1, 1⟩

def next (p : Position) (c : Char) : Position :=
  if c = '\n' then ⟨p.line + 1, 1⟩ else ⟨p.line, p.column + 1⟩

/-- The place behind some characters that start at a place. -/
def after (p : Position) (cs : List Char) : Position := cs.foldl next p

/-- The mark that messages end with. A place before the first line has none. -/
def mark (p : Position) : String :=
  if p.line = 0 then ""
  else String.ofList (" (line ".toList ++ Nat.toDigits 10 p.line ++ ", column ".toList ++
    Nat.toDigits 10 p.column ++ [')'])

end Position
end Parley
