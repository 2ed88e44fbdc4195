import Parley.Json.Parser
import Parley.Proofs.Number.Signed
import Parley.Proofs.Outcome

/-!
Numbers in JSON text. A numeral is read as the number that it writes, up to a character that it
cannot go on with.
-/
namespace Parley.Json

open Numeral

/-- Whether a text cannot go on with a numeral in front of it. -/
def Halts (rest : List Char) : Prop :=
  ∀ c ∈ rest.head?, isPlainDigit c = false ∧ c ≠ '.' ∧ c ≠ 'e' ∧ c ≠ 'E'

variable {rest : List Char}

theorem Halts.stop (halts : Halts rest) : ∀ c ∈ rest.head?, isPlainDigit c = false :=
  fun c head => (halts c head).1

/-- Digits that start with no zero, unless they are one zero. -/
theorem wholeDigits_append {cs : List Char} (some_digits : cs ≠ [])
    (digits : ∀ c ∈ cs, isPlainDigit c)
    (unpadded : cs = ['0'] ∨ ∃ c more, cs = c :: more ∧ c ≠ '0')
    (stop : ∀ c ∈ rest.head?, isPlainDigit c = false) :
    wholeDigits (cs ++ rest) = some (digitsOf cs, rest) := by
  rcases unpadded with rfl | ⟨c, more, rfl, other⟩
  · rfl
  · have run := digitRun_append digits stop
    rw [List.cons_append] at run ⊢
    rw [wholeDigits.eq_2 _ (fun _ same => other (List.cons.inj same).1), run]
    rfl

theorem optional_fraction_none (point : ∀ c ∈ rest.head?, c ≠ '.') :
    optional fraction? rest = (none, rest) := by
  cases rest with
  | nil => rfl
  | cons c more =>
    have other := point c rfl
    rw [optional, fraction?.eq_2 _ (fun _ same => other (List.cons.inj same).1)]

theorem optional_exponent_none (mark : ∀ c ∈ rest.head?, c ≠ 'e' ∧ c ≠ 'E') :
    optional exponent? rest = (none, rest) := by
  cases rest with
  | nil => rfl
  | cons c more =>
    obtain ⟨small, capital⟩ := mark c rfl
    rw [optional, exponent?, if_neg (not_or.mpr ⟨small, capital⟩)]

theorem optional_fraction (l : Layout) (stop : ∀ c ∈ rest.head?, isPlainDigit c = false ∧ c ≠ '.') :
    optional fraction? (l.partChars ++ rest) =
      (if l.part = [] then none else some (digitsOf l.part), rest) := by
  unfold Layout.partChars
  split
  · exact optional_fraction_none fun c head => (stop c head).2
  · rename_i part
    have run := digitRun_append l.part_digits fun c head => (stop c head).1
    have filled : (digitsOf l.part).isEmpty = false := by simpa [digitsOf] using part
    rw [List.cons_append, optional, fraction?, run]
    simp only [filled]
    rfl

theorem optional_exponent (l : Layout) (halts : Halts rest) :
    optional exponent? (l.exponentChars ++ rest) =
      (if l.exponent.isSome then some l.power else none, rest) := by
  unfold Layout.exponentChars Layout.power
  cases found : l.exponent with
  | none => exact optional_exponent_none fun c head => (halts c head).2.2
  | some x =>
    obtain ⟨negative, digits⟩ := x
    obtain ⟨some_digits, all⟩ := l.exponent_digits _ found
    have run := digitRun_append all halts.stop
    have filled : (digitsOf digits).isEmpty = false := by simpa [digitsOf] using some_digits
    cases negative <;> simp [optional, exponent?, sign, run, filled]

/-- A marked numeral is read as the binary number nearest to it. -/
theorem unsigned_layout (negative : Bool) {l : Layout} (marked : l.Marked)
    (unpadded : Unpadded l.chars) (halts : Halts rest) :
    unsigned negative (l.chars ++ rest) = .ok (.float (l.value.nearest negative), rest) := by
  have behind : ∀ c ∈ (l.exponentChars ++ rest).head?, isPlainDigit c = false ∧ c ≠ '.' := by
    unfold Layout.exponentChars
    cases l.exponent with
    | none => exact fun c head => ⟨(halts c head).1, (halts c head).2.1⟩
    | some x =>
      rintro c ⟨⟩
      decide
  have stop : ∀ c ∈ (l.partChars ++ (l.exponentChars ++ rest)).head?, isPlainDigit c = false := by
    unfold Layout.partChars
    split
    · exact fun c head => (behind c head).1
    · rintro c ⟨⟩
      rfl
  have text : l.chars ++ rest = l.whole ++ (l.partChars ++ (l.exponentChars ++ rest)) := by
    simp [Layout.chars]
  have whole := wholeDigits_append l.some_whole l.whole_digits (l.unpadded_whole unpadded) stop
  have length : (digitsOf l.part).length = l.part.length := List.length_map _
  rw [unsigned, text, whole, expected, ok_bind]
  dsimp only
  rw [optional_fraction l behind]
  dsimp only
  rw [optional_exponent l halts]
  by_cases part : l.part = []
  · have exponent := marked.resolve_left (not_not_intro part)
    simp [part, exponent, Layout.value, digitsOf]
  · by_cases exponent : l.exponent.isSome
    · simp [part, exponent, Layout.value, digitsOf_append, length]
    · have power : l.power = 0 := by
        rw [Layout.power, Option.not_isSome_iff_eq_none.mp exponent]
      simp [part, exponent, power, Layout.value, digitsOf_append, length]

/-- A row of digits is read as a whole number. -/
theorem unsigned_natChars (negative : Bool) {n : Nat} (short : (natChars n).length ≤ maxDigits)
    (halts : Halts rest) :
    unsigned negative (natChars n ++ rest) =
      .ok (.int (if negative then -(n : Int) else n), rest) := by
  have unpadded : natChars n = ['0'] ∨ ∃ c more, natChars n = c :: more ∧ c ≠ '0' := by
    by_cases zero : n = 0
    · rw [zero]
      exact .inl rfl
    · exact .inr (head_natChars_ne_zero zero)
  have whole := wholeDigits_append (natChars_ne_nil n) (natChars_plain n) unpadded halts.stop
  have fits : ¬maxDigits < (digitsOf (natChars n)).length := by
    rw [digitsOf, List.length_map]
    exact Nat.not_lt.mpr short
  rw [unsigned, whole, expected, ok_bind]
  dsimp only
  rw [optional_fraction_none fun c head => (halts c head).2.1]
  dsimp only
  rw [optional_exponent_none fun c head => (halts c head).2.2]
  simp only [Option.isNone_none, Bool.and_self, if_true, if_neg fits, digitsValue_natChars]
  rfl

end Parley.Json
