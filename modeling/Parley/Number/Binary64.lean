/-!
Binary floating-point numbers of 64 bits. A finite one is a signed whole multiple of the least
unit `2⁻¹⁰⁷⁴`, so sums, products, quotients and comparisons are computed exactly on integers and
then rounded once, to the nearest representable value and to an even significand on a tie.
-/
namespace Parley

/-- A significand and a power of two in their one permitted form: a significand below `2⁵²` stands
only with the power `0`. -/
structure Binary64.Canonical (significand power : Nat) : Prop where
  significand_lt : significand < Nat.pow 2 53
  power_le : power ≤ 2045
  normal : Nat.pow 2 52 ≤ significand ∨ power = 0

instance (significand power : Nat) : Decidable (Binary64.Canonical significand power) :=
  decidable_of_iff (significand < Nat.pow 2 53 ∧ power ≤ 2045 ∧ (Nat.pow 2 52 ≤ significand ∨ power = 0))
    ⟨fun h => ⟨h.1, h.2.1, h.2.2⟩, fun h => ⟨h.1, h.2, h.3⟩⟩

inductive Binary64 where
  | nan
  | infinite (negative : Bool)
  | finite (negative : Bool) (significand power : Nat)
      (canonical : Binary64.Canonical significand power)
  deriving DecidableEq

namespace Binary64

/-- How many least units make up the number one. -/
def one : Nat := Nat.pow 2 1074

def zero (negative : Bool) : Binary64 :=
  .finite negative 0 0 ⟨by decide, by decide, .inr rfl⟩

instance : Inhabited Binary64 := ⟨zero false⟩

def ofParts (negative : Bool) (significand power : Nat) : Binary64 :=
  if h : Canonical significand power then .finite negative significand power h
  else .infinite negative

/-- The whole number nearest to `num / den`, the even one of two. -/
def roundHalfEven (num den : Nat) : Nat :=
  let q := num / den
  let r := num % den
  if den < 2 * r ∨ (2 * r = den ∧ q % 2 = 1) then q + 1 else q

/-- The number nearest to `num / den` least units. -/
def ofUnits (negative : Bool) (num den : Nat) : Binary64 :=
  let power := (num / den).log2 - 52
  let significand := roundHalfEven num (den * Nat.pow 2 power)
  if significand = Nat.pow 2 53 then ofParts negative (Nat.pow 2 52) (power + 1)
  else ofParts negative significand power

/-- The number nearest to `num / den`. -/
def ofRatio (negative : Bool) (num den : Nat) : Binary64 :=
  ofUnits negative (num * one) den

def ofInt (n : Int) : Binary64 :=
  ofRatio (decide (n < 0)) n.natAbs 1

/-- The number nearest to a whole count of units; `negativeZero` is the sign of a zero count. -/
def ofSignedUnits (negativeZero : Bool) (units : Int) : Binary64 :=
  if units = 0 then zero negativeZero
  else ofUnits (decide (units < 0)) units.natAbs 1

/-- The magnitude of a finite number in least units. -/
def units (significand power : Nat) : Nat := significand * Nat.pow 2 power

/-- The value in least units, where there is one. -/
def signedUnits? : Binary64 → Option Int
  | .finite negative significand power _ =>
      some (if negative then -(units significand power : Int) else units significand power)
  | _ => none

def isFinite : Binary64 → Bool
  | .finite .. => true
  | _ => false

def isNaN : Binary64 → Bool
  | .nan => true
  | _ => false

def isZero : Binary64 → Bool
  | .finite _ significand _ _ => significand == 0
  | _ => false

def isNegative : Binary64 → Bool
  | .nan => false
  | .infinite negative => negative
  | .finite negative _ _ _ => negative

/-- Whether a number is a finite whole number. -/
def isWhole : Binary64 → Bool
  | .finite _ significand power _ => units significand power % one == 0
  | _ => false

/-- The whole part, the fraction dropped. -/
def truncate? : Binary64 → Option Int
  | .finite negative significand power _ =>
      let whole : Int := (units significand power / one : Nat)
      some (if negative then -whole else whole)
  | _ => none

def neg : Binary64 → Binary64
  | .nan => .nan
  | .infinite negative => .infinite !negative
  | .finite negative significand power h => .finite (!negative) significand power h

def withSign (negative : Bool) : Binary64 → Binary64
  | .nan => .nan
  | .infinite _ => .infinite negative
  | .finite _ significand power h => .finite negative significand power h

def add : Binary64 → Binary64 → Binary64
  | .nan, _ | _, .nan => .nan
  | .infinite a, .infinite b => if a = b then .infinite a else .nan
  | .infinite a, .finite .. | .finite .., .infinite a => .infinite a
  | .finite a m p _, .finite b n q _ =>
      let left : Int := if a then -(units m p : Int) else units m p
      let right : Int := if b then -(units n q : Int) else units n q
      ofSignedUnits (a && b) (left + right)

def sub (x y : Binary64) : Binary64 := add x (neg y)

def mul : Binary64 → Binary64 → Binary64
  | .nan, _ | _, .nan => .nan
  | .infinite a, .infinite b => .infinite (a ^^ b)
  | .infinite a, .finite b m _ _ | .finite b m _ _, .infinite a =>
      if m = 0 then .nan else .infinite (a ^^ b)
  | .finite a m p _, .finite b n q _ =>
      ofUnits (a ^^ b) (units m p * units n q) one

/-- The quotient; a zero divisor gives an infinite number, or none for a zero dividend. -/
def div : Binary64 → Binary64 → Binary64
  | .nan, _ | _, .nan => .nan
  | .infinite _, .infinite _ => .nan
  | .infinite a, .finite b _ _ _ => .infinite (a ^^ b)
  | .finite a _ _ _, .infinite b => zero (a ^^ b)
  | .finite a m p _, .finite b n q _ =>
      if n = 0 then (if m = 0 then .nan else .infinite (a ^^ b))
      else ofUnits (a ^^ b) (units m p * one) (units n q)

/-- The remainder of the quotient cut toward zero, with the sign of the dividend. -/
def truncatedRemainder : Binary64 → Binary64 → Binary64
  | .nan, _ | _, .nan => .nan
  | .infinite _, _ => .nan
  | x@(.finite ..), .infinite _ => x
  | .finite a m p _, .finite _ n q _ =>
      if n = 0 then .nan else ofUnits a (units m p % units n q) 1

/-- The remainder with the sign of the divisor. -/
def modulo (x y : Binary64) : Binary64 :=
  let r := truncatedRemainder x y
  if r.isZero then withSign y.isNegative r
  else if r.isNegative ≠ y.isNegative then add r y else r

/-- The order of two numbers, none when one of them is not a number. -/
def compare? : Binary64 → Binary64 → Option Ordering
  | .nan, _ | _, .nan => none
  | .infinite a, .infinite b => some (if a = b then .eq else if a then .lt else .gt)
  | .infinite a, .finite .. => some (if a then .lt else .gt)
  | .finite .., .infinite b => some (if b then .gt else .lt)
  | .finite a m p _, .finite b n q _ =>
      let left : Int := if a then -(units m p : Int) else units m p
      let right : Int := if b then -(units n q : Int) else units n q
      some (compare left right)

/-- The order of a whole number and a number, compared without rounding. -/
def compareInt? (n : Int) : Binary64 → Option Ordering
  | .nan => none
  | .infinite b => some (if b then .gt else .lt)
  | .finite b m p _ =>
      some (compare (n * one) (if b then -(units m p : Int) else units m p))

end Binary64
end Parley
