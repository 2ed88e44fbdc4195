import Parley.Proofs.Expr.RoundTrip

/-!
The numerals of an expression. What is taken of a text as a number is a decimal, so the numbers of
an expression that is read are finite or infinite, but never none.
-/
namespace Parley

open Numeral

theorem digitValue_lt {c : Char} {d : Nat} (digit : digitValue? c = some d) : d < 10 := by
  unfold digitValue? at digit
  split at digit
  · cases digit
  · split at digit
    · cases digit
      omega
    · obtain ⟨first, found, rfl⟩ := Option.map_eq_some_iff.mp digit
      have range := List.find?_some found
      simp only [Bool.and_eq_true, decide_eq_true_eq] at range
      omega

/-- Digits of any script become digits of the Latin one. -/
theorem plain_of_digits {cs : List Char} (digits : ∀ c ∈ cs, isDecimalDigit c) :
    ∀ c ∈ plainDigits cs, isPlainDigit c := by
  intro c member
  obtain ⟨d, inside, rfl⟩ := List.mem_map.mp member
  obtain ⟨n, value⟩ := Option.isSome_iff_exists.mp (digits d inside)
  rw [value]
  exact isPlainDigit_digitChar (digitValue_lt value)

theorem plainDigits_append (cs ds : List Char) :
    plainDigits (cs ++ ds) = plainDigits cs ++ plainDigits ds := List.map_append

namespace Terminal

theorem digits_take (cs : List Char) : ∀ c ∈ cs.take (digitCount cs), isDecimalDigit c := by
  have run : cs.takeWhile isDecimalDigit = cs.take (digitCount cs) :=
    List.prefix_iff_eq_take.mp (List.takeWhile_prefix _)
  rw [← run]
  exact fun c member => List.all_eq_true.mp List.all_takeWhile c member

theorem fraction_take (cs : List Char) : cs.take (fractionLength cs) = [] ∨
    ∃ digits, cs.take (fractionLength cs) = '.' :: digits ∧ ∀ c ∈ digits, isDecimalDigit c := by
  unfold fractionLength
  split
  · rename_i rest
    split
    · exact .inl rfl
    · exact .inr ⟨rest.take (digitCount rest), rfl, digits_take rest⟩
  · exact .inl rfl

/-- Whether characters are those of an exponent. -/
def IsExponent (cs : List Char) : Prop :=
  ∃ e signs digits, cs = e :: (signs ++ digits) ∧ (e = 'e' ∨ e = 'E') ∧
    (signs = [] ∨ signs = ['+'] ∨ signs = ['-']) ∧ digits ≠ [] ∧ ∀ c ∈ digits, isDecimalDigit c

theorem isExponent_take {e : Char} (signs tail : List Char) (mark : e = 'e' ∨ e = 'E')
    (sign : signs = [] ∨ signs = ['+'] ∨ signs = ['-']) (some : digitCount tail ≠ 0) :
    IsExponent ((e :: (signs ++ tail)).take (1 + signs.length + digitCount tail)) := by
  refine ⟨e, signs, tail.take (digitCount tail), ?_, mark, sign, ?_, digits_take tail⟩
  · rw [Nat.add_assoc, Nat.add_comm, List.take_succ_cons, List.take_length_add_append]
  · intro none
    rcases List.take_eq_nil_iff.mp none with zero | empty
    · exact some zero
    · rw [empty] at some
      exact some rfl

theorem exponent_take (cs : List Char) : cs.take (exponentLength cs) = [] ∨
    IsExponent (cs.take (exponentLength cs)) := by
  unfold exponentLength
  split
  · rename_i e rest
    split
    · rename_i mark
      dsimp only
      split
      · rename_i s more
        by_cases sign : s = '+' ∨ s = '-'
        · simp only [if_pos sign]
          split
          · exact .inl rfl
          · rename_i some
            have signs : [s] = [] ∨ [s] = ['+'] ∨ [s] = ['-'] := by simpa using sign
            exact .inr (isExponent_take [s] more mark signs some)
        · simp only [if_neg sign]
          split
          · exact .inl rfl
          · rename_i some
            exact .inr (isExponent_take [] (s :: more) mark (.inl rfl) some)
      · exact .inl rfl
    · exact .inl rfl
  · exact .inl rfl

theorem exists_exponent {cs : List Char} (isExponent : cs = [] ∨ IsExponent cs) :
    ∃ n, exponent? (plainDigits cs) = some n := by
  rcases isExponent with rfl | ⟨e, signs, digits, rfl, mark, sign, some, each⟩
  · exact ⟨0, rfl⟩
  · have plain := plain_of_digits each
    have filled : (digitsOf (plainDigits digits)).isEmpty = false := by
      cases digits with
      | nil => exact absurd rfl some
      | cons d more => rfl
    have run := digitRun_all plain
    have front : plainDigits (e :: (signs ++ digits)) = e :: (signs ++ plainDigits digits) := by
      have letter : plainDigits [e] = [e] := by rcases mark with rfl | rfl <;> decide
      have same : plainDigits signs = signs := by rcases sign with rfl | rfl | rfl <;> decide
      rw [← List.singleton_append, plainDigits_append, plainDigits_append, letter, same]
      rfl
    have signless : ∃ negative, Numeral.sign (signs ++ plainDigits digits) =
        (negative, plainDigits digits) := by
      rcases sign with rfl | rfl | rfl
      · cases shape : plainDigits digits with
        | nil => exact ⟨false, rfl⟩
        | cons d more =>
          have digit := isPlainDigit_iff.mp (plain d (shape ▸ List.mem_cons_self))
          refine ⟨false, ?_⟩
          rw [List.nil_append, Numeral.sign]
          · rintro rest ⟨⟩
            exact absurd digit (by decide)
          · rintro rest ⟨⟩
            exact absurd digit (by decide)
      · exact ⟨false, rfl⟩
      · exact ⟨true, rfl⟩
    obtain ⟨negative, signed⟩ := signless
    rw [front, exponent?, if_pos mark, signed]
    simp [run, filled]

theorem head_exponent {cs : List Char} (isExponent : cs = [] ∨ IsExponent cs) :
    ∀ c ∈ (plainDigits cs).head?, isPlainDigit c = false ∧ c ≠ '.' := by
  rcases isExponent with rfl | ⟨e, signs, digits, rfl, mark, _⟩
  · simp [plainDigits]
  · have letter : (digitValue? e).elim e Nat.digitChar = e := by
      rcases mark with rfl | rfl <;> decide
    simp only [plainDigits, List.map_cons, letter, List.head?_cons, Option.mem_some_iff, forall_eq']
    rcases mark with rfl | rfl <;> decide

/-- All that is taken of a text as a number is a decimal. -/
theorem exists_decimal {c : Char} {rest : List Char} (digit : isDecimalDigit c) :
    ∃ d, decimal? (plainDigits ((c :: rest).take (numberLength (c :: rest)))) = some d := by
  have isWhole := plain_of_digits (digits_take (c :: rest))
  have filled : (digitsOf (plainDigits ((c :: rest).take (digitCount (c :: rest))))).isEmpty =
      false := by
    rw [digitCount, List.takeWhile_cons_of_pos digit]
    rfl
  unfold numberLength
  rw [List.take_add, List.take_add, plainDigits_append, plainDigits_append]
  generalize plainDigits ((c :: rest).take (digitCount (c :: rest))) = whole at isWhole filled ⊢
  generalize (c :: rest).drop (digitCount (c :: rest)) = behind
  have isExponent := exponent_take
    ((c :: rest).drop (digitCount (c :: rest) + fractionLength behind))
  generalize List.take (exponentLength _) _ = power at isExponent ⊢
  obtain ⟨n, exponent⟩ := exists_exponent isExponent
  have stop := head_exponent isExponent
  generalize plainDigits power = tail at exponent stop ⊢
  rw [List.append_assoc]
  rcases fraction_take behind with none | ⟨digits, some, each⟩
  · have run := digitRun_append isWhole fun d head => (stop d head).1
    have point : fraction tail = ([], tail) := by
      unfold fraction
      split
      · exact absurd rfl (stop '.' rfl).2
      · rfl
    have same : plainDigits (behind.take (fractionLength behind)) ++ tail = tail := by
      rw [none]
      rfl
    rw [same, decimal?, run]
    simp [point, filled, exponent]
  · have isPart := plain_of_digits each
    have same : plainDigits (behind.take (fractionLength behind)) = '.' :: plainDigits digits := by
      have point : plainDigits ['.'] = ['.'] := by decide
      rw [some, ← List.singleton_append, plainDigits_append, point]
      rfl
    have run := @digitRun_append whole ('.' :: (plainDigits digits ++ tail)) isWhole
      (by simp; decide)
    have part := digitRun_append isPart fun d head => (stop d head).1
    rw [same, List.cons_append, decimal?, run]
    simp [fraction, part, filled, exponent]

end Terminal

theorem Binary64.ofRatio_ne_nan (negative : Bool) (num den : Nat) :
    ofRatio negative num den ≠ .nan := by
  unfold ofRatio ofUnits ofParts
  dsimp only
  repeat' split
  all_goals
    intro same
    cases same

theorem Decimal.nearest_ne_nan (negative : Bool) (d : Decimal) : d.nearest negative ≠ .nan := by
  unfold nearest
  split
  · intro same
    cases same
  · split
    · intro same
      cases same
    · exact Binary64.ofRatio_ne_nan _ _ _

namespace Terminal

/-- A number that is scanned is a number. -/
theorem scan?_ne_nan {expected : Expected} {c : Char} {rest : List Char} {n : Nat} :
    scan? expected c rest ≠ some (literal (.float .nan), n) := by
  intro scanned
  unfold scan? at scanned
  dsimp only at scanned
  split at scanned
  · split at scanned <;> cases scanned
  · split at scanned
    · obtain ⟨length, _, same⟩ := Option.map_eq_some_iff.mp scanned
      cases same
    · split at scanned
      · rename_i digit
        obtain ⟨d, decimal⟩ := @exists_decimal c rest digit
        have number := (Prod.mk.inj (Option.some.inj scanned)).1
        have same : numberLiteral ((c :: rest).take (numberLength (c :: rest))) = .float .nan :=
          Terminal.literal.inj number
        unfold numberLiteral at same
        simp only [decimal, Option.map_some, Option.getD_some] at same
        split at same
        · exact d.nearest_ne_nan false (Literal.float.inj same)
        · cases same
      · split at scanned
        · rename_i start
          have fit : (literal (.float .nan)).Fit := fit_of_word start (Option.some.inj scanned)
          cases fit.1
        · have fit : (literal (.float .nan)).Fit := fit_of_sign scanned
          cases fit.1

end Terminal

/-- The numbers of an expression that is read are finite unless they are infinite. -/
theorem Expr.finite_of_parseChars {cs : List Char} {e : Expr} (accepted : parseChars cs = .ok e)
    (bounded : ∀ negative, literal (.float (.infinite negative)) ∉ e.nodes) :
    ∀ x, literal (.float x) ∈ e.nodes → x.isFinite := by
  intro x member
  cases x with
  | finite => rfl
  | infinite negative => exact absurd member (bounded negative)
  | nan =>
    obtain ⟨_, ts, cut, taken, _⟩ := parseChars_eq_ok_iff.mp accepted
    have terminal := (literal_mem_nodes (derives_of_ofLexemes taken)).mp member
    obtain ⟨l, here, same⟩ := List.mem_map.mp terminal
    have scanned : l ∈ (Lexemes.ofChars .operand .start cs).lexemes := by
      rw [cut]
      exact here
    obtain ⟨_, _, _, _, found, _⟩ := exists_scan_of_mem scanned
    rw [same] at found
    exact absurd found Terminal.scan?_ne_nan

end Parley
