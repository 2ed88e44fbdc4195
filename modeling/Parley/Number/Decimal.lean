import Parley.Number.Binary64

/-!
Decimal numbers, the binary number nearest to one, and the shortest one that a binary number is
nearest to.
-/
namespace Parley

/-- The number `digits · 10^exponent`. -/
structure Decimal where
  digits : Nat
  exponent : Int
  deriving DecidableEq

namespace Decimal

def ratio (d : Decimal) : Nat × Nat :=
  if 0 ≤ d.exponent then (d.digits * Nat.pow 10 d.exponent.toNat, 1)
  else (d.digits, Nat.pow 10 (-d.exponent).toNat)

/-- The nearest binary number. Exponents that are far out of its range are settled first, so that
no power of theirs is computed: `digits` is below `10^(log2 digits + 1)`. -/
def nearest (negative : Bool) (d : Decimal) : Binary64 :=
  if d.digits = 0 ∨ d.exponent + d.digits.log2 < -400 then .zero negative
  else if 400 < d.exponent then .infinite negative
  else .ofRatio negative d.ratio.1 d.ratio.2

/-- How many decimal digits stand before the point of `num / den`; for a number below one, zero
less the zeros that follow the point. -/
def magnitude (num den : Nat) : Int :=
  if den ≤ num then ((Nat.toDigits 10 (num / den)).length : Int)
  else 1 - ((Nat.toDigits 10 ((den - 1) / num)).length : Int)

/-- Of the two neighbours of `num / den` on the grid of multiples of `10^exponent`, the nearest
that reads back as `target`; of two equally near ones the even one. -/
def onGrid? (target : Binary64) (num den : Nat) (exponent : Int) : Option Decimal :=
  let above := if 0 ≤ exponent then num else num * Nat.pow 10 (-exponent).toNat
  let below := if 0 ≤ exponent then den * Nat.pow 10 exponent.toNat else den
  let floor := above / below
  let rest := above % below
  let down : Decimal := ⟨floor, exponent⟩
  let up : Decimal := ⟨floor + 1, exponent⟩
  let upFirst := below < 2 * rest ∨ (2 * rest = below ∧ floor % 2 = 1)
  (if upFirst then [up, down] else [down, up]).find? fun d => d.nearest false == target

/-- The decimal of fewest digits whose nearest binary number has the given magnitude. Seventeen
digits suffice; the exact expansion stands behind them only to make the choice total. -/
def shortest (significand power : Nat) (h : Binary64.Canonical significand power) : Decimal :=
  let num := Binary64.units significand power
  let places := magnitude num Binary64.one
  let target := Binary64.finite false significand power h
  let found := (List.range 17).findSome? fun (n : Nat) =>
    onGrid? target num Binary64.one (places - (n + 1))
  found.getD ⟨num * Nat.pow 5 1074, -1074⟩

end Decimal
end Parley
