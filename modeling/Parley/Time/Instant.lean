import Parley.Number.Binary64
import Parley.Time.Offset
import Parley.Time.Zone

/-!
Points in time, counted in microseconds or, in stored records, in milliseconds. Milliseconds are
computed through seconds in binary numbers, the last steps of which are not exact.
-/
namespace Parley

/-- A point in time as it is told in some zone; a zone that is a mere offset has no name. -/
structure Instant where
  micros : Int
  zone : Option String
  deriving DecidableEq

namespace Instant

/-- The name that is stored for the zone. -/
def zoneName (t : Instant) : String := t.zone.getD "UTC"

/-- The milliseconds of a point in time, cut toward the epoch. -/
def millis (t : Instant) : Int :=
  let seconds := Binary64.ofRatio (decide (t.micros < 0)) t.micros.natAbs 1000000
  ((seconds.mul (Binary64.ofInt 1000)).truncate?).getD 0

/-- Why milliseconds tell no point in time. -/
inductive Defect where
  | unknownZone
  | yearOutOfRange
  | secondsOutOfRange
  /-- The clocks of the zone are outside the calendar. -/
  | localOutOfRange
  deriving DecidableEq

/-- The nearest whole number, the even one of two. -/
def nearestInt (x : Binary64) : Int :=
  match x with
  | .finite negative significand power _ =>
      let n : Int := Binary64.roundHalfEven (Binary64.units significand power) Binary64.one
      if negative then -n else n
  | _ => 0

/-- The microseconds that stored milliseconds stand for, between the years 1 and 9999 both in universal
time and in the zone. -/
def ofMillis (millis : Int) (zone : String) : Except Defect Int :=
  let seconds := Binary64.ofRatio (decide (millis < 0)) millis.natAbs 1000
  match seconds.truncate? with
  | none => .error .secondsOutOfRange
  | some whole =>
      if !isZoneName zone then .error .unknownZone
      else if whole.natAbs ≥ Nat.pow 2 63 then .error .secondsOutOfRange
      else
        let fraction := seconds.sub (Binary64.ofInt whole)
        let micros := whole * 1000000 + nearestInt (fraction.mul (Binary64.ofInt 1000000))
        if micros < calendarStart ∨ calendarEnd ≤ micros then .error .yearOutOfRange
        else if isInCalendar micros zone then .ok micros
        else .error .localOutOfRange

end Instant
end Parley
