import Parley.Number.Notation

/-!
Dates of the Gregorian calendar and the written form of points in time.
-/
namespace Parley

structure Date where
  year : Int
  month : Nat
  day : Nat
  deriving DecidableEq

namespace Date

/-- The date so many days after the first of January 1970. Years are counted from March on, so that
a leap day is the last day of its year, and in cycles of four hundred. -/
def ofDays (days : Int) : Date :=
  let fromMarch := days + 719468
  let cycle := fromMarch.fdiv 146097
  let dayOfCycle := (fromMarch.fmod 146097).toNat
  let yearOfCycle :=
    (dayOfCycle - dayOfCycle / 1460 + dayOfCycle / 36524 - dayOfCycle / 146096) / 365
  let dayOfYear := dayOfCycle - (365 * yearOfCycle + yearOfCycle / 4 - yearOfCycle / 100)
  let monthFromMarch := (5 * dayOfYear + 2) / 153
  let month := if monthFromMarch < 10 then monthFromMarch + 3 else monthFromMarch - 9
  ⟨cycle * 400 + yearOfCycle + (if month ≤ 2 then 1 else 0), month,
    dayOfYear - (153 * monthFromMarch + 2) / 5 + 1⟩

end Date

/-- A number with zeros in front of it up to a width. -/
def paddedText (width n : Nat) : String :=
  let digits := natText n
  String.ofList (List.replicate (width - digits.length) '0') ++ digits

/-- A point in time, counted in microseconds since 1970, as it is written in universal time. A whole
second is written without a fraction. -/
def universalText (micros : Int) : String :=
  let date := Date.ofDays (micros.fdiv 86400000000)
  let left := (micros.fmod 86400000000).toNat
  let second := left / 1000000
  let fraction := left % 1000000
  paddedText 4 date.year.toNat ++ "-" ++ paddedText 2 date.month ++ "-" ++ paddedText 2 date.day ++
    "T" ++ paddedText 2 (second / 3600) ++ ":" ++ paddedText 2 (second / 60 % 60) ++ ":" ++
    paddedText 2 (second % 60) ++ (if fraction = 0 then "" else "." ++ paddedText 6 fraction) ++
    "+00:00"

end Parley
