import Parley.Number.Notation
import Parley.Number.Numeral
import Parley.Text.Name

/-!
Times of day as they are written in ISO 8601: hours, minutes and seconds with colons between all or
none of them, a fraction behind the last, and a zone, which is checked and then ignored.
-/
namespace Parley

structure LocalTime where
  hour : Nat
  minute : Nat
  deriving DecidableEq

namespace LocalTime

def digit? (c : Char) : Option Nat :=
  if Numeral.isPlainDigit c then some (c.toNat - '0'.toNat) else none

def twoDigits? : List Char → Option (Nat × List Char)
  | a :: b :: rest => do return (10 * (← digit? a) + (← digit? b), rest)
  | _ => none

/-- Hours, minutes and seconds as far as they are given, and whether something is left over that
is no part of them. -/
structure Fields where
  values : List Nat
  leftOver : Bool

/-- A fraction: up to six digits are read, further ones passed over. -/
def fraction? (values : List Nat) (cs : List Char) : Option Fields :=
  let read := cs.take 6
  if read.isEmpty || !read.all Numeral.isPlainDigit then none
  else some ⟨values, ((cs.drop 6).dropWhile Numeral.isPlainDigit).head?.any (· != '\x00')⟩

/-- The fields from the one on that follows `values`, `due` of them at most. Whether colons divide
them is settled by what follows the first. A single character at the end is left over, whatever it
is. -/
def fields? (divided : Bool) (values : List Nat) : Nat → List Char → Option Fields
  | 0, cs => fraction? values cs
  | due + 1, cs => do
      let (value, rest) ← twoDigits? cs
      let values := values ++ [value]
      match rest with
      | [] => some ⟨values, false⟩
      | [c] => if c.toNat < 128 then some ⟨values, c != '\x00'⟩ else none
      | c :: more =>
          let divided := if values.length = 1 then c == ':' else divided
          if divided && c == ':' then fields? divided values due more
          else if c = '.' ∨ c = ',' then fraction? values more
          else if divided then none
          else fields? divided values due rest

def startsZone (c : Char) : Bool := c == '+' || c == '-' || c == 'Z'

/-- Whether a zone is well formed; an offset is less than a day. -/
def isZone : List Char → Bool
  | [] => true
  | 'Z' :: rest => rest.head?.all (· == '\x00')
  | _ :: rest =>
      match fields? false [] 3 rest with
      | some ⟨values, leftOver⟩ =>
          !leftOver && decide (values.getD 0 0 * 3600 + values.getD 1 0 * 60 + values.getD 2 0 < 86400)
      | none => false

def parseChars? (cs : List Char) : Option LocalTime := do
  let text := match cs with
    | 'T' :: rest => rest
    | other => other
  let clock := text.takeWhile (!startsZone ·)
  let zone := text.dropWhile (!startsZone ·)
  let ⟨values, leftOver⟩ ← fields? false [] 3 clock
  if (zone.isEmpty && leftOver) || !isZone zone then none
  else if values.getD 0 0 < 24 ∧ values.getD 1 0 < 60 ∧ values.getD 2 0 < 60 then
    some ⟨values.getD 0 0, values.getD 1 0⟩
  else none

def twoPlaces (n : Nat) : List Char := [Nat.digitChar (n / 10 % 10), Nat.digitChar (n % 10)]

def text (t : LocalTime) : String := String.ofList (twoPlaces t.hour ++ [':'] ++ twoPlaces t.minute)

/-- The standard form of a time of day: `now`, or hours and minutes. -/
def normalize? (s : String) : Option String :=
  if lower s = "now" then some "now" else (parseChars? s.toList).map LocalTime.text

end LocalTime
end Parley
