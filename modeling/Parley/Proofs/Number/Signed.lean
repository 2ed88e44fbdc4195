import Parley.Proofs.Number.Reading

/-!
Binary numbers with their signs. A finite number is written as a sign and a numeral without zeros in
front, and no two numbers are written alike.
-/
namespace Parley

theorem Binary64.ofParts_true (significand power : Nat) :
    ofParts true significand power = (ofParts false significand power).neg := by
  unfold ofParts
  split <;> rfl

theorem Binary64.ofRatio_true (num den : Nat) :
    ofRatio true num den = (ofRatio false num den).neg := by
  unfold ofRatio ofUnits
  dsimp only
  split <;> exact ofParts_true _ _

/-- Rounding does not depend on the sign. -/
theorem Decimal.nearest_true (d : Decimal) : d.nearest true = (d.nearest false).neg := by
  unfold nearest
  split
  · rfl
  · split
    · rfl
    · exact Binary64.ofRatio_true _ _

/-! Numerals without zeros in front -/

/-- Whether a text starts with no zero but one in front of a point. -/
def Unpadded (cs : List Char) : Prop := ∀ rest, cs = '0' :: rest → rest.head? = some '.'

theorem unpadded_of_ne {c : Char} (other : c ≠ '0') (rest : List Char) : Unpadded (c :: rest) :=
  fun _ same => absurd (List.cons.inj same).1 other

theorem head_natChars_ne_zero {n : Nat} (positive : n ≠ 0) :
    ∃ c rest, natChars n = c :: rest ∧ c ≠ '0' := by
  induction n using Nat.strongRecOn with
  | ind n ih =>
    rw [natChars_eq]
    split
    · rename_i small
      have all : ∀ d : Fin 10, d.val ≠ 0 → Nat.digitChar d.val ≠ '0' := by decide
      exact ⟨_, [], rfl, all ⟨n, small⟩ positive⟩
    · obtain ⟨c, rest, whole, other⟩ := ih (n / 10) (by omega) (by omega)
      exact ⟨c, rest ++ [(n % 10).digitChar], by rw [whole, List.cons_append], other⟩

/-- The digits of a number start with no zero, also when zeros behind them are left out. -/
theorem head_stripped {n : Nat} (positive : n ≠ 0) :
    ∃ c rest, ((natChars n).reverse.dropWhile (· == '0')).reverse = c :: rest ∧ c ≠ '0' := by
  obtain ⟨c, rest, whole, other⟩ := head_natChars_ne_zero positive
  have kept : (c :: rest).reverse.dropWhile (· == '0') =
      rest.reverse.dropWhile (· == '0') ++ [c] := by
    rw [List.reverse_cons, List.dropWhile_append]
    split
    · rename_i all
      rw [List.isEmpty_iff.mp all, List.dropWhile_cons_of_neg (by simp [other]), List.nil_append]
    · rfl
  refine ⟨c, (rest.reverse.dropWhile (· == '0')).reverse, ?_, other⟩
  rw [whole, kept, List.reverse_append]
  rfl

theorem unpadded_decimalChars {d : Decimal} (some_digits : d.digits ≠ 0) :
    Unpadded (decimalChars d) := by
  obtain ⟨c, rest, stripped, other⟩ := head_stripped some_digits
  unfold decimalChars
  simp only [stripped]
  split
  · rename_i near
    unfold positional
    split
    · rintro rest ⟨⟩
      rfl
    · rename_i after
      split
      · exact unpadded_of_ne other _
      · have first : 0 < (natChars d.digits).length + d.exponent := Int.not_le.mp after
        obtain ⟨n, point⟩ := Nat.exists_eq_succ_of_ne_zero
          (n := ((natChars d.digits).length + d.exponent).toNat) (by omega)
        rw [point]
        exact unpadded_of_ne other _
  · exact unpadded_of_ne other _

namespace Numeral

theorem Layout.unpadded_whole {l : Layout} (unpadded : Unpadded l.chars) :
    l.whole = ['0'] ∨ ∃ c rest, l.whole = c :: rest ∧ c ≠ '0' := by
  obtain ⟨c, rest, whole⟩ := List.exists_cons_of_ne_nil l.some_whole
  by_cases zero : c = '0'
  · subst zero
    have point := unpadded (rest ++ (l.partChars ++ l.exponentChars))
      (by rw [Layout.chars, whole, List.cons_append])
    cases rest with
    | nil => exact .inl whole
    | cons d others =>
      cases point
      have digit := l.whole_digits '.' (by simp [whole])
      cases digit
  · exact .inr ⟨c, rest, whole, zero⟩

end Numeral

open Numeral

/-- A finite number is written as a sign and a numeral, of which it is the value. -/
theorem Binary64.exists_numeral {x : Binary64} (finite : x.isFinite) :
    ∃ l : Layout, l.Marked ∧ Unpadded l.chars ∧ x.chars = signChars x.isNegative ++ l.chars ∧
      l.value.nearest x.isNegative = x := by
  cases x with
  | nan => cases finite
  | infinite negative => cases finite
  | finite negative significand power h =>
    obtain ⟨l, marked, chars, nearest⟩ := exists_layout h
    refine ⟨l, marked, ?_, ?_, ?_⟩
    · rw [← chars, Binary64.chars]
      split
      · rintro rest ⟨⟩
        rfl
      · rename_i some
        have some_digits : (Decimal.shortest significand power h).digits ≠ 0 := by
          intro no_digits
          have reads_back := Decimal.nearest_shortest h
          rw [Decimal.nearest, if_pos (.inl no_digits), zero] at reads_back
          cases reads_back
          exact some rfl
        rw [signChars, if_neg Bool.false_ne_true, List.nil_append]
        exact unpadded_decimalChars some_digits
    · rw [← chars]
      rfl
    · cases negative with
      | false => exact nearest
      | true => rw [isNegative, Decimal.nearest_true, nearest]; rfl

theorem Numeral.Layout.head_chars (l : Layout) :
    ∃ c rest, l.chars = c :: rest ∧ isPlainDigit c := by
  obtain ⟨c, rest, whole⟩ := List.exists_cons_of_ne_nil l.some_whole
  exact ⟨c, rest ++ (l.partChars ++ l.exponentChars), by rw [chars, whole, List.cons_append],
    l.whole_digits c (by simp [whole])⟩

theorem signChars_inj {first second : Bool} {cs ds : List Char}
    (digit : ∀ c ∈ cs.head?, isPlainDigit c) (digit' : ∀ c ∈ ds.head?, isPlainDigit c)
    (same : signChars first ++ cs = signChars second ++ ds) : first = second ∧ cs = ds := by
  cases first with
  | false =>
    cases second with
    | false => exact ⟨rfl, same⟩
    | true =>
      have minus : cs = '-' :: ds := same
      have wrong := digit '-' (by rw [minus]; rfl)
      cases wrong
  | true =>
    cases second with
    | false =>
      have minus : '-' :: cs = ds := same
      have wrong := digit' '-' (by rw [← minus]; rfl)
      cases wrong
    | true => exact ⟨rfl, (List.cons.inj same).2⟩

/-- No two finite numbers have one text. -/
theorem Binary64.chars_inj {x y : Binary64} (finite : x.isFinite) (finite' : y.isFinite)
    (same : x.chars = y.chars) : x = y := by
  obtain ⟨l, _, _, chars, nearest⟩ := exists_numeral finite
  obtain ⟨m, _, _, chars', nearest'⟩ := exists_numeral finite'
  rw [chars, chars'] at same
  have digits (l : Layout) : ∀ c ∈ l.chars.head?, isPlainDigit c := by
    obtain ⟨c, rest, whole, digit⟩ := l.head_chars
    rw [whole]
    rintro d ⟨⟩
    exact digit
  obtain ⟨sign, numeral⟩ := signChars_inj (digits l) (digits m) same
  have magnitude : l.value.nearest false = m.value.nearest false := by
    have read := float_layout l
    rw [numeral, float_layout m] at read
    exact (Option.some.inj read).symm
  rw [← nearest, ← nearest', sign]
  cases y.isNegative with
  | false => exact magnitude
  | true => rw [Decimal.nearest_true, Decimal.nearest_true, magnitude]

theorem intChars_signed (n : Int) :
    intChars n = signChars (decide (n < 0)) ++ natChars n.natAbs := by
  unfold intChars
  split <;> rename_i side <;> simp [signChars, side]

/-- No two whole numbers have one text. -/
theorem intChars_inj {m n : Int} (same : intChars m = intChars n) : m = n := by
  rw [intChars_signed, intChars_signed] at same
  obtain ⟨sign, digits⟩ := signChars_inj (head_natChars _) (head_natChars _) same
  have magnitude : m.natAbs = n.natAbs := by
    rw [← digitsValue_natChars m.natAbs, digits, digitsValue_natChars]
  simp only [decide_eq_decide] at sign
  omega

end Parley
