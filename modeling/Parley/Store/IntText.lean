import Parley.Number.Numeral

/-!
Whole numbers that are given as texts. A plus sign, zeros in front, single underscores between
digits and a fraction of zeros are allowed, each in its place; what is left must be a whole number
in its standard form.
-/
namespace Parley.IntText

/-- The text without a plus sign in front, which no minus sign may follow. -/
def withoutPlus? : List Char → Option (List Char)
  | '+' :: '-' :: _ => none
  | '+' :: rest => some rest
  | cs => some cs

/-- The text behind zeros and underscores, the first of which is a zero; the last of them, `before`,
is kept in front of a point and at the end. -/
def behindZeros? (before : Option Char) : List Char → Option (List Char)
  | [] => before.map fun last => [last]
  | c :: rest =>
      if c = '0' ∨ (c = '_' ∧ before.isSome) then behindZeros? (some c) rest
      else if c = '-' ∨ ('1' ≤ c ∧ c ≤ '9') then some (c :: rest)
      else if c = '.' then before.map fun last => last :: c :: rest
      else none

/-- The text without a fraction of zeros. -/
def withoutFraction (cs : List Char) : List Char :=
  let whole := cs.takeWhile (· != '.')
  let part := cs.drop (whole.length + 1)
  if !part.isEmpty && part.all (· == '0') then whole else cs

/-- The text without its underscores, which stand alone and not at its ends. -/
def withoutUnderscores? (atStart : Bool) : List Char → Option (List Char)
  | [] => some []
  | ['_'] => none
  | '_' :: '_' :: _ => none
  | '_' :: rest => if atStart then none else withoutUnderscores? false rest
  | c :: rest => (withoutUnderscores? false rest).map (c :: ·)

/-- A whole number without a plus sign and zeros in front, and not too long. -/
def standard? (cs : List Char) : Option Int :=
  let (negative, rest) := match cs with
    | '-' :: rest => (true, rest)
    | rest => (false, rest)
  let (digits, tail) := Numeral.digitRun rest
  let n : Int := digitsValue digits
  if digits.isEmpty || !tail.isEmpty || maxDigits < cs.length then none
  else if digits.head? = some 0 ∧ digits.length ≠ 1 then none
  else some (if negative then -n else n)

def read? (s : String) : Option Int := do
  let text := dropEnd isPadding (s.toList.dropWhile isPadding)
  let text ← behindZeros? none (← withoutPlus? text)
  standard? (← withoutUnderscores? true (withoutFraction text))

end Parley.IntText
