/-!
Lines of a text. A line ends at any of ten breaks; a carriage return and the line feed behind it
are one break.
-/
namespace Parley

def isLineBreak (c : Char) : Bool :=
  let n := c.toNat
  (0xa ≤ n && n ≤ 0xd) || (0x1c ≤ n && n ≤ 0x1e) || n == 0x85 || n == 0x2028 || n == 0x2029

/-- A line and the break that ends it, which is empty at the end of the text. -/
structure Line where
  content : List Char
  ending : List Char
  deriving DecidableEq

/-- Puts a character in front of the first of some lines. -/
def Line.consFirst (c : Char) : List Line → List Line
  | [] => [⟨[c], []⟩]
  | line :: rest => { line with content := c :: line.content } :: rest

/-- The lines of a text, none for the empty text. -/
def Line.ofChars : List Char → List Line
  | [] => []
  | '\r' :: '\n' :: rest => ⟨[], ['\r', '\n']⟩ :: ofChars rest
  | c :: rest =>
      if isLineBreak c then ⟨[], [c]⟩ :: ofChars rest else consFirst c (ofChars rest)

/-- A text with line feeds in place of carriage returns, of which one with a line feed behind it
falls away. -/
def unifyBreaks : List Char → List Char
  | [] => []
  | '\r' :: '\n' :: rest => '\n' :: unifyBreaks rest
  | c :: rest => (if c = '\r' then '\n' else c) :: unifyBreaks rest

/-- A line with its ending. -/
def Line.full (line : Line) : List Char := line.content ++ line.ending

theorem flatMap_full_consFirst (c : Char) (lines : List Line) :
    (Line.consFirst c lines).flatMap Line.full = c :: lines.flatMap Line.full := by
  cases lines <;> simp [Line.consFirst, Line.full]

/-- No character is lost in the lines of a text. -/
theorem flatMap_full_ofChars (cs : List Char) : (Line.ofChars cs).flatMap Line.full = cs := by
  fun_induction Line.ofChars cs with
  | case1 => rfl
  | case2 rest ih => simp [Line.full, ih]
  | case3 c rest _ _ ih => simp [Line.full, ih]
  | case4 c rest _ _ ih => simp [flatMap_full_consFirst, ih]

end Parley
