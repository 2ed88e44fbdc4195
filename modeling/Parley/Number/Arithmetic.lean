import Parley.Failure

/-!
Arithmetic on whole and binary numbers. Whole numbers are unbounded; with a binary operand a whole
one is first rounded to a binary number, which fails when it is too large.
-/
namespace Parley

inductive Number where
  | whole (n : Int)
  | binary (x : Binary64)
  deriving DecidableEq

def Value.asNumber? : Value → Option Number
  | .int n => some (.whole n)
  | .float x => some (.binary x)
  | _ => none

namespace Number

def value : Number → Value
  | whole n => .int n
  | binary x => .float x

def isZero : Number → Bool
  | whole n => n == 0
  | binary x => x.isZero

def toBinary : Number → Except Failure Binary64
  | whole n =>
      let x := Binary64.ofInt n
      if x.isFinite then .ok x else .error .overflow
  | binary x => .ok x

def lift (onWhole : Int → Int → Number) (onBinary : Binary64 → Binary64 → Binary64) :
    Number → Number → Except Failure Number
  | whole a, whole b => .ok (onWhole a b)
  | a, b => do
      let x ← a.toBinary
      let y ← b.toBinary
      return binary (onBinary x y)

def add : Number → Number → Except Failure Number :=
  lift (fun a b => whole (a + b)) Binary64.add

def sub : Number → Number → Except Failure Number :=
  lift (fun a b => whole (a - b)) Binary64.sub

def mul : Number → Number → Except Failure Number :=
  lift (fun a b => whole (a * b)) Binary64.mul

/-- The remainder that has the sign of the divisor. -/
def modulo : Number → Number → Except Failure Number :=
  lift (fun a b => whole (Int.fmod a b)) Binary64.modulo

/-- A whole quotient of whole numbers stays whole, any other is rounded once. -/
def div : Number → Number → Except Failure Number
  | whole a, whole b =>
      if Int.fmod a b = 0 then .ok (whole (Int.fdiv a b))
      else
        let x := Binary64.ofRatio (decide (a < 0) ^^ decide (b < 0)) a.natAbs b.natAbs
        if x.isFinite then .ok (binary x) else .error .overflow
  | a, b => do
      let x ← a.toBinary
      let y ← b.toBinary
      return binary (x.div y)

def neg : Number → Number
  | whole n => whole (-n)
  | binary x => binary x.neg

end Number
end Parley
