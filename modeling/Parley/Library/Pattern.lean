import Parley.Text.Name

/-!
Patterns that choose files by their paths. In a name, an asterisk stands for any characters, a
question mark for one, and brackets for one of the characters listed in them, by ranges or one by
one; a part of two asterisks stands for any folders, one within the other.
-/
namespace Parley

inductive Glyph where
  | many
  | any
  | char (c : Char)
  | oneOf (negated : Bool) (ranges : List (Char × Char))

namespace Glyph

/-! The inside of brackets -/

/-- Cuts a list of characters at the hyphens between the ends of ranges. The first `skip` characters
and a hyphen at the end are taken as they are. -/
def cut (skip : Nat) (cs : List Char) : List (List Char) :=
  let length := skip + ((cs.drop skip).takeWhile (· != '-')).length
  match _h : cs.drop length with
  | [] | [_] => [cs]
  | _ :: rest => cs.take length :: cut 2 rest
  termination_by cs.length
  decreasing_by
    have shorter := congrArg List.length _h
    simp only [List.length_drop, List.length_cons] at shorter
    omega

/-- Whether a range from the end of one chunk to the start of the next holds no character. -/
def isEmptyRange (chunk next : List Char) : Bool :=
  match chunk.getLast?, next.head? with
  | some first, some last => last < first
  | _, _ => false

/-- Leaves out the ranges that end before they start. -/
def joinEmpty : List (List Char) → List (List Char)
  | [] => []
  | chunk :: rest =>
      match joinEmpty rest with
      | [] => [chunk]
      | next :: others =>
          if isEmptyRange chunk next then (chunk.dropLast ++ next.drop 1) :: others
          else chunk :: next :: others

/-- The characters of all chunks, and the ranges from one chunk to the next. -/
def rangesOf : List (List Char) → List (Char × Char)
  | [] => []
  | chunk :: rest =>
      let single := chunk.map fun c => (c, c)
      match chunk.getLast?, rest.head?.bind List.head? with
      | some first, some last => single ++ (first, last) :: rangesOf rest
      | _, _ => single ++ rangesOf rest

/-- The set in brackets; with an exclamation mark in front, what is not in it. -/
def ofInside (cs : List Char) : Glyph :=
  match joinEmpty (cut (if cs.head? = some '!' then 2 else 1) cs) with
  | ('!' :: chunk) :: rest => oneOf true (rangesOf (chunk :: rest))
  | chunks => oneOf false (rangesOf chunks)

/-- How many characters stand in front of the bracket that closes an open one. It cannot be the
first character of the set. -/
def insideLength? (cs : List Char) : Option Nat :=
  let mark := if cs.head? = some '!' then 1 else 0
  let lead := if (cs.drop mark).head? = some ']' then mark + 1 else mark
  let length := lead + ((cs.drop lead).takeWhile (· != ']')).length
  if length < cs.length then some length else none

def ofChars : List Char → List Glyph
  | [] => []
  | c :: rest =>
      if c = '*' then many :: ofChars rest
      else if c = '?' then any :: ofChars rest
      else if c = '[' then
        match insideLength? rest with
        | some length => ofInside (rest.take length) :: ofChars (rest.drop (length + 1))
        | none => char c :: ofChars rest
      else char c :: ofChars rest
  termination_by cs => cs.length
  decreasing_by all_goals simp only [List.length_drop, List.length_cons]; omega

/-- Whether one character fits. -/
def fits (c : Char) : Glyph → Bool
  | many | any => true
  | char d => c == d
  | oneOf negated ranges => negated ^^ ranges.any fun (first, last) => first ≤ c && c ≤ last

/-- Whether a name fits from end to end. -/
def areMet : List Glyph → List Char → Bool
  | [], cs => cs.isEmpty
  | many :: rest, [] => areMet rest []
  | many :: rest, c :: cs => areMet rest (c :: cs) || areMet (many :: rest) cs
  | _ :: _, [] => false
  | g :: rest, c :: cs => g.fits c && areMet rest cs
  termination_by gs cs => gs.length + cs.length

end Glyph

/-- A part of a pattern: any folders, or the name of one place. -/
inductive PathStep where
  | folders
  | name (glyphs : List Glyph)

/-- A pattern of paths; it chooses files only. -/
structure FilePattern where
  steps : List PathStep

namespace FilePattern

def areMet : List PathStep → List String → Bool
  | [], path => path.isEmpty
  | _ :: _, [] => false
  | .folders :: rest, part :: more =>
      areMet rest (part :: more) || areMet (.folders :: rest) more
  | .name glyphs :: rest, part :: more => Glyph.areMet glyphs part.toList && areMet rest more
  termination_by steps path => steps.length + path.length

/-- Whether a pattern chooses the file at a path. -/
def isMet (p : FilePattern) (path : List String) : Bool := areMet p.steps path

def hasTwoAsterisks : List Char → Bool
  | '*' :: '*' :: _ => true
  | _ :: rest => hasTwoAsterisks rest
  | [] => false

/-- A part of a pattern, in which two asterisks must stand alone. -/
def stepOf? (part : List Char) : Option PathStep :=
  if part = ['*', '*'] then some .folders
  else if hasTwoAsterisks part then none
  else some (.name (Glyph.ofChars part))

/-- The pattern of the files in and below a folder whose names go on with an extension behind some
characters. One that ends with a slash asks for folders. -/
def ofExtension? (extension : String) : Option FilePattern := do
  let text := '*' :: extension.toList
  let parts := (splitChars '/' text).filter fun part => part != [] && part != ['.']
  let steps ← parts.mapM stepOf?
  return ⟨.folders :: steps ++ if text.getLast? = some '/' then [.folders] else []⟩

/-- The pattern of the files that hold scripts. -/
def scripts : FilePattern :=
  ⟨[.folders, .name [.many, .char '.', .char 'd', .char 'l', .char 'b']]⟩

end FilePattern
end Parley
