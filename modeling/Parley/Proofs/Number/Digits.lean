import Mathlib.Tactic.Ring
import Parley.Number.Numeral
import Parley.Proofs.Text.Span

/-!
Rows of digits and the whole numbers that they write.
-/
namespace Parley

namespace Numeral

/-- The values of some plain digits. -/
def digitsOf (cs : List Char) : List Nat := cs.map fun c => c.toNat - '0'.toNat

theorem isPlainDigit_iff {c : Char} : isPlainDigit c ↔ 48 ≤ c.toNat ∧ c.toNat ≤ 57 := by
  simp only [isPlainDigit, Bool.and_eq_true, decide_eq_true_eq]
  rfl

theorem isPlainDigit_digitChar {d : Nat} (h : d < 10) : isPlainDigit d.digitChar := by
  rw [isPlainDigit_iff, Nat.toNat_digitChar_of_lt_ten h]
  omega

theorem digitChar_of_isPlainDigit {c : Char} (h : isPlainDigit c) :
    Nat.digitChar (c.toNat - 48) = c := by
  rw [isPlainDigit_iff] at h
  apply Char.toNat_inj.mp
  rw [Nat.toNat_digitChar_of_lt_ten (by omega)]
  omega

theorem digitValue_of_isPlainDigit {c : Char} (h : isPlainDigit c) :
    digitValue? c = some (c.toNat - 48) := by
  rw [isPlainDigit_iff] at h
  rw [digitValue?, if_neg (by omega), if_pos (by omega)]

theorem isDecimalDigit_of_isPlainDigit {c : Char} (h : isPlainDigit c) : isDecimalDigit c := by
  rw [isDecimalDigit, digitValue_of_isPlainDigit h]
  rfl

/-- Characters that are plain digits or no digits at all stand for themselves. -/
theorem plainDigits_of_plain {cs : List Char}
    (plain : ∀ c ∈ cs, isPlainDigit c ∨ digitValue? c = none) : plainDigits cs = cs := by
  induction cs with
  | nil => rfl
  | cons c rest ih =>
    have first : (digitValue? c).elim c Nat.digitChar = c := by
      rcases plain c (by simp) with digit | other
      · rw [digitValue_of_isPlainDigit digit]
        exact digitChar_of_isPlainDigit digit
      · rw [other]
        rfl
    have later := ih fun d member => plain d (by simp [member])
    simp only [plainDigits, List.map_cons, first] at later ⊢
    rw [later]

/-- Some plain digits in front of something else are what is read first. -/
theorem digitRun_append {cs rest : List Char} (digits : ∀ c ∈ cs, isPlainDigit c)
    (stop : ∀ c ∈ rest.head?, isPlainDigit c = false) :
    digitRun (cs ++ rest) = (digitsOf cs, rest) := by
  have run : (cs ++ rest).takeWhile isPlainDigit = cs := by
    rw [List.takeWhile_append_of_pos digits]
    cases rest with
    | nil => simp
    | cons c more => simp [stop c rfl]
  have behind : (cs ++ rest).dropWhile isPlainDigit = rest := by
    rw [List.dropWhile_append_of_pos digits]
    cases rest with
    | nil => rfl
    | cons c more => simp [stop c rfl]
  rw [digitRun, run, behind, digitsOf]

theorem digitRun_all {cs : List Char} (digits : ∀ c ∈ cs, isPlainDigit c) :
    digitRun cs = (digitsOf cs, []) := by
  have run := @digitRun_append cs [] digits (by simp)
  rwa [List.append_nil] at run

end Numeral

theorem digitsValue_append (xs ys : List Nat) :
    digitsValue (xs ++ ys) = digitsValue xs * 10 ^ ys.length + digitsValue ys := by
  have shift (zs : List Nat) : ∀ n,
      zs.foldl (fun n d => 10 * n + d) n = n * 10 ^ zs.length + digitsValue zs := by
    induction zs with
    | nil => simp [digitsValue]
    | cons z rest ih =>
      intro n
      rw [digitsValue, List.foldl_cons, List.foldl_cons, ih, ih, List.length_cons, pow_succ]
      ring
  rw [digitsValue, List.foldl_append, shift]
  rfl

theorem digitsValue_zeros (n : Nat) : digitsValue (List.replicate n 0) = 0 := by
  induction n with
  | zero => rfl
  | succ n ih => rw [List.replicate_succ', digitsValue_append, ih]; rfl

open Numeral

theorem digitsOf_append (xs ys : List Char) : digitsOf (xs ++ ys) = digitsOf xs ++ digitsOf ys :=
  List.map_append

theorem digitsOf_zeros (n : Nat) : digitsOf (List.replicate n '0') = List.replicate n 0 := by
  rw [digitsOf, List.map_replicate]
  rfl

theorem natChars_eq (n : Nat) :
    natChars n = if n < 10 then [n.digitChar] else natChars (n / 10) ++ [(n % 10).digitChar] :=
  Nat.toDigits_eq_if (by decide)

theorem natChars_plain (n : Nat) : ∀ c ∈ natChars n, isPlainDigit c := by
  induction n using Nat.strongRecOn with
  | ind n ih =>
    intro c member
    rw [natChars_eq] at member
    split at member
    · rename_i small
      rw [List.mem_singleton.mp member]
      exact isPlainDigit_digitChar small
    · rcases List.mem_append.mp member with earlier | last
      · exact ih (n / 10) (by omega) c earlier
      · rw [List.mem_singleton.mp last]
        exact isPlainDigit_digitChar (Nat.mod_lt n (by decide))

theorem natChars_ne_nil (n : Nat) : natChars n ≠ [] := Nat.toDigits_ne_nil

/-- The digits of a number are read as the number. -/
theorem digitsValue_natChars (n : Nat) : digitsValue (digitsOf (natChars n)) = n := by
  have single {d : Nat} (h : d < 10) : digitsOf [d.digitChar] = [d] := by
    simp [digitsOf, Nat.toNat_digitChar_sub_48_of_lt_ten h]
  induction n using Nat.strongRecOn with
  | ind n ih =>
    rw [natChars_eq]
    split
    · rename_i small
      rw [single small]
      simp [digitsValue]
    · have last := single (Nat.mod_lt n (by decide : 10 > 0))
      rw [digitsOf_append, last, digitsValue_append, ih (n / 10) (by omega)]
      simp only [List.length_singleton, digitsValue, List.foldl_cons, List.foldl_nil]
      omega

/-- A number has at most as many digits as any row of digits that writes it. -/
theorem length_natChars_le {n : Nat} {cs : List Char} (some : cs ≠ [])
    (digits : ∀ c ∈ cs, isPlainDigit c) (writes : digitsValue (digitsOf cs) = n) :
    (natChars n).length ≤ cs.length := by
  have below (ds : List Char) (digits : ∀ c ∈ ds, isPlainDigit c) :
      digitsValue (digitsOf ds) < 10 ^ ds.length := by
    induction ds with
    | nil => simp [digitsOf, digitsValue]
    | cons d rest ih =>
      have later := ih fun c member => digits c (by simp [member])
      have first := isPlainDigit_iff.mp (digits d (by simp))
      have value : digitsValue (digitsOf [d]) ≤ 9 := by
        have zero : '0'.toNat = 48 := rfl
        simp only [digitsOf, digitsValue, List.map_cons, List.map_nil, List.foldl_cons,
          List.foldl_nil]
        omega
      have length : (digitsOf rest).length = rest.length := List.length_map _
      have split : digitsOf (d :: rest) = digitsOf [d] ++ digitsOf rest := digitsOf_append [d] rest
      rw [split, digitsValue_append, length, List.length_cons, pow_succ]
      have tens := Nat.mul_le_mul_right (10 ^ rest.length) value
      omega
  have positive : 0 < cs.length := List.length_pos_iff.mpr some
  rw [natChars, Nat.length_toDigits_le_iff (by decide) positive, ← writes]
  exact below cs digits

end Parley
