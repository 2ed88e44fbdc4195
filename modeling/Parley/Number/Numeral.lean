import Parley.Text.Blank
import Parley.Text.Digit
import Parley.Number.Notation

/-!
Reading numbers that stand alone in a text: blanks around them, a sign, digits of any script and
single underscores between digits are allowed. A whole number must not have too many digits.
-/
namespace Parley
namespace Numeral

/-- The text without the blanks around it. -/
def unpadded (cs : List Char) : List Char := dropEnd isPadding (cs.dropWhile isPadding)

/-- The digits of any script as the digits `0` to `9`. -/
def plainDigits (cs : List Char) : List Char :=
  cs.map fun c => (digitValue? c).elim c Nat.digitChar

def isPlainDigit (c : Char) : Bool := '0' ≤ c && c ≤ '9'

/-- Removes the underscores, each of which must stand between two digits. -/
def withoutUnderscores? (afterDigit : Bool) : List Char → Option (List Char)
  | [] => some []
  | '_' :: c :: rest =>
      if afterDigit && isPlainDigit c then (withoutUnderscores? true rest).map (c :: ·) else none
  | '_' :: [] => none
  | c :: rest => (withoutUnderscores? (isPlainDigit c) rest).map (c :: ·)

def plain? (s : String) : Option (List Char) :=
  withoutUnderscores? false (plainDigits (unpadded s.toList))

/-- A sign, if there is one, and the rest. -/
def sign : List Char → Bool × List Char
  | '-' :: rest => (true, rest)
  | '+' :: rest => (false, rest)
  | rest => (false, rest)

def digitRun (cs : List Char) : List Nat × List Char :=
  ((cs.takeWhile isPlainDigit).map (·.toNat - '0'.toNat), cs.dropWhile isPlainDigit)

/-- A whole number. -/
def int? (s : String) : Option Int := do
  let cs ← plain? s
  let (negative, rest) := sign cs
  let (digits, tail) := digitRun rest
  if digits.isEmpty || maxDigits < digits.length || !tail.isEmpty then none
  else
    let n : Int := digitsValue digits
    some (if negative then -n else n)

/-- The digits behind a point, if a point stands first. -/
def fraction : List Char → List Nat × List Char
  | '.' :: rest => digitRun rest
  | rest => ([], rest)

/-- The exponent that a text is, if it is one from end to end; no text is the exponent zero. -/
def exponent? : List Char → Option Int
  | [] => some 0
  | c :: rest =>
      if c = 'e' ∨ c = 'E' then
        let (negative, rest) := sign rest
        let (digits, tail) := digitRun rest
        if digits.isEmpty || !tail.isEmpty then none
        else
          let n : Int := digitsValue digits
          some (if negative then -n else n)
      else none

/-- A decimal with or without a point and an exponent. -/
def decimal? (cs : List Char) : Option Decimal := do
  let (whole, rest) := digitRun cs
  let (part, rest) := fraction rest
  if whole.isEmpty && part.isEmpty then none
  else
    let exponent ← exponent? rest
    some ⟨digitsValue (whole ++ part), exponent - part.length⟩

def lowerLetter (c : Char) : Char :=
  if 'A' ≤ c && c ≤ 'Z' then Char.ofNat (c.toNat + 32) else c

/-- A number with a fraction, an infinity or the number that is none. -/
def float? (s : String) : Option Binary64 := do
  let cs ← plain? s
  let (negative, rest) := sign cs
  let word := String.ofList (rest.map lowerLetter)
  if word = "inf" ∨ word = "infinity" then some (.infinite negative)
  else if word = "nan" then some .nan
  else (decimal? rest).map (·.nearest negative)

end Numeral
end Parley
