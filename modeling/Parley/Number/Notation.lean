import Parley.Number.Decimal

/-!
How numbers are written: whole numbers in plain digits, binary numbers with the fewest digits that
read back, always with a point or an exponent.
-/
namespace Parley

def natChars (n : Nat) : List Char := Nat.toDigits 10 n

def intChars (n : Int) : List Char :=
  if n < 0 then '-' :: natChars n.natAbs else natChars n.natAbs

def intText (n : Int) : String := String.ofList (intChars n)

def natText (n : Nat) : String := String.ofList (natChars n)

/-- The most digits that a whole number is read from or written with. -/
def maxDigits : Nat := 4300

/-- Whether a whole number has no more digits than are written. -/
def isWritableInt (n : Int) : Bool := n.natAbs < Nat.pow 10 maxDigits

/-- Digits with the point after the first `point` of them, padded with zeros as needed. -/
def positional (digits : List Char) (point : Int) : List Char :=
  if point ≤ 0 then ['0', '.'] ++ List.replicate (-point).toNat '0' ++ digits
  else if digits.length ≤ point.toNat then
    digits ++ List.replicate (point.toNat - digits.length) '0' ++ ['.', '0']
  else digits.take point.toNat ++ ['.'] ++ digits.drop point.toNat

/-- Digits with the point after the first and an exponent of a sign and two digits or more. -/
def scientific (digits : List Char) (exponent : Int) : List Char :=
  let mark := if exponent < 0 then '-' else '+'
  let shown := natChars exponent.natAbs
  let fraction := digits.drop 1
  digits.take 1 ++ (if fraction.isEmpty then [] else '.' :: fraction) ++
    ['e', mark] ++ List.replicate (2 - shown.length) '0' ++ shown

/-- A decimal in positional notation if its point falls at most sixteen digits behind its first
digit or three zeros before it, else with an exponent. -/
def decimalChars (d : Decimal) : List Char :=
  let written := natChars d.digits
  let point := written.length + d.exponent
  let digits := (written.reverse.dropWhile (· == '0')).reverse
  if -4 < point ∧ point ≤ 16 then positional digits point else scientific digits (point - 1)

def signChars (negative : Bool) : List Char := if negative then ['-'] else []

def Binary64.chars : Binary64 → List Char
  | .nan => ['n', 'a', 'n']
  | .infinite negative => signChars negative ++ ['i', 'n', 'f']
  | .finite negative significand power h =>
      signChars negative ++
        if significand = 0 then ['0', '.', '0'] else decimalChars (Decimal.shortest significand power h)

def Binary64.text (x : Binary64) : String := String.ofList x.chars

end Parley
