/-!
Blank characters, and text without the blanks at its ends.
-/
namespace Parley

/-- A blank: white space of any script, or one of the four separator controls. -/
def isBlank (c : Char) : Bool :=
  let n := c.toNat
  (9 ≤ n && n ≤ 13) || (0x1c ≤ n && n ≤ 0x20) || n == 0x85 || n == 0xa0 || n == 0x1680 ||
    (0x2000 ≤ n && n ≤ 0x200a) || n == 0x2028 || n == 0x2029 || n == 0x202f || n == 0x205f ||
    n == 0x3000

/-- The blanks that may stand around a numeral: all but the separator controls. -/
def isPadding (c : Char) : Bool := isBlank c && !(0x1c ≤ c.toNat && c.toNat ≤ 0x1f)

/-- Text without the characters of a class at its end. -/
def dropEnd (p : Char → Bool) (cs : List Char) : List Char :=
  (cs.reverse.dropWhile p).reverse

def stripChars (cs : List Char) : List Char := dropEnd isBlank (cs.dropWhile isBlank)

def stripStart (s : String) : String := String.ofList (s.toList.dropWhile isBlank)

def stripEnd (s : String) : String := String.ofList (dropEnd isBlank s.toList)

def strip (s : String) : String := String.ofList (stripChars s.toList)

/-- Whether a text is empty or all blank. -/
def isBlankText (s : String) : Bool := s.toList.all isBlank

/-- The first word of a text and what follows it and the blanks behind it. -/
def firstWord (cs : List Char) : List Char × List Char :=
  let text := cs.dropWhile isBlank
  (text.takeWhile (!isBlank ·), (text.dropWhile (!isBlank ·)).dropWhile isBlank)

end Parley
