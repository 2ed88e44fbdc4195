import Mathlib.Tactic.SplitIfs
import Parley.Json.Parser
import Parley.Json.Printer
import Parley.Proofs.Outcome

/-!
Strings in seven-bit text. What is written of a text without halves of surrogate pairs is read as
that text, and the quote behind it ends it.
-/
namespace Parley

/-- A character is no half of a surrogate pair and has no more than twenty-one bits. -/
theorem toNat_bounds (c : Char) :
    c.toNat < 0xd800 ∨ (0xdfff < c.toNat ∧ c.toNat < 0x110000) := c.valid

theorem hexDigit?_hexDigit (n : Nat) : Json.hexDigit? (hexDigit n) = some (n % 16) := by
  have all : ∀ d : Fin 16, Json.hexDigit? (Nat.digitChar d.val) = some d.val := by decide
  exact all ⟨n % 16, Nat.mod_lt n (by decide)⟩

namespace Json

/-- Four digits to the base of sixteen write sixteen bits. -/
theorem hexNumber?_hexText {n : Nat} (small : n < 0x10000) :
    hexNumber? (hexText 4 n) = some n := by
  have digits : hexText 4 n =
      [hexDigit (n / 16 / 16 / 16), hexDigit (n / 16 / 16), hexDigit (n / 16), hexDigit n] := rfl
  rw [digits, hexNumber?]
  simp only [List.foldlM_cons, List.foldlM_nil, hexDigit?_hexDigit, Option.map_some,
    Option.bind_eq_bind, Option.bind_some, Option.pure_def, Option.some.injEq]
  omega

/-- The units of sixteen bits that stand for a character: itself, or the two halves of a pair. -/
def units (c : Char) : List Nat :=
  if c.toNat < 0x10000 then [c.toNat]
  else [0xd800 + (c.toNat - 0x10000) / 0x400, 0xdc00 + (c.toNat - 0x10000) % 0x400]

/-- Codes that were read and stand in front of others. -/
def ahead (first : List Nat) (read : Option (List Nat × List Char)) :
    Option (List Nat × List Char) :=
  read.map fun (codes, rest) => (first ++ codes, rest)

theorem ahead_append (first second : List Nat) (read : Option (List Nat × List Char)) :
    ahead (first ++ second) read = ahead first (ahead second read) := by
  cases read <;> simp [ahead]

theorem stringCodes_unit {n : Nat} (small : n < 0x10000) (rest : List Char) :
    stringCodes (unitEscape n ++ rest) = ahead [n] (stringCodes rest) := by
  have digits : unitEscape n ++ rest = '\\' :: 'u' :: hexDigit (n / 16 / 16 / 16) ::
      hexDigit (n / 16 / 16) :: hexDigit (n / 16) :: hexDigit n :: rest := rfl
  have number := hexNumber?_hexText small
  rw [digits, stringCodes]
  erw [number]
  cases stringCodes rest <;> rfl

theorem stringCodes_code (c : Char) (rest : List Char) :
    stringCodes (codeEscape c ++ rest) = ahead (units c) (stringCodes rest) := by
  have bounds := toNat_bounds c
  by_cases small : c.toNat < 0x10000
  · rw [codeEscape, units, if_pos small]
    simp only [if_pos small]
    exact stringCodes_unit small rest
  · rw [codeEscape, units, if_neg small]
    simp only [if_neg small]
    rw [List.append_assoc, stringCodes_unit (by omega), stringCodes_unit (by omega),
      ← ahead_append]
    rfl

theorem stringCodes_short {c : Char} {shown : Char} (escape : shortEscape? c = some shown)
    (rest : List Char) :
    stringCodes ('\\' :: c :: rest) = ahead [shown.toNat] (stringCodes rest) := by
  have other : c ≠ 'u' := by
    rintro rfl
    cases escape
  rw [stringCodes.eq_4 _ _ (by simp [other]), escape]
  cases stringCodes rest <;> rfl

theorem stringCodes_plain {c : Char} (quote : c ≠ '"') (escape : c ≠ '\\')
    (high : ¬c.toNat < 0x20) (rest : List Char) :
    stringCodes (c :: rest) = ahead [c.toNat] (stringCodes rest) := by
  rw [stringCodes.eq_5 _ _ quote (by simp [escape]) (by simp [escape]),
    if_neg (by simp [high, escape])]
  cases stringCodes rest <;> rfl

theorem units_of_small {c : Char} (small : c.toNat < 0x10000) : units c = [c.toNat] := if_pos small

/-- Every way in which a character is written is a way to read it. -/
theorem stringCodes_charChars (c : Char) (rest : List Char) :
    stringCodes (charChars .ascii c ++ rest) = ahead (units c) (stringCodes rest) := by
  have short {shown : Char} {letter : Char} (same : c = shown) (small : shown.toNat < 0x10000)
      (escape : shortEscape? letter = some shown) :
      stringCodes (['\\', letter] ++ rest) = ahead (units c) (stringCodes rest) := by
    rw [same, units_of_small small]
    exact stringCodes_short escape rest
  unfold charChars
  split_ifs with quote backslash feed back tab form erase control outside
  · exact short quote (by decide) rfl
  · exact short backslash (by decide) rfl
  · exact short feed (by decide) rfl
  · exact short back (by decide) rfl
  · exact short tab (by decide) rfl
  · exact short form (by decide) rfl
  · exact short erase (by decide) rfl
  · exact stringCodes_code c rest
  · exact stringCodes_code c rest
  · have printable : c.toNat ≤ 0x7e := Nat.le_of_not_lt fun beyond => outside ⟨rfl, beyond⟩
    rw [units_of_small (by omega)]
    exact stringCodes_plain quote backslash control rest

/-- A text in seven bits, without the quotes around it. -/
def asciiChars (cs : List Char) : List Char := cs.flatMap (charChars .ascii)

theorem stringCodes_asciiChars (cs rest : List Char) :
    stringCodes (asciiChars cs ++ '"' :: rest) = some (cs.flatMap units, rest) := by
  induction cs with
  | nil => exact stringCodes.eq_2 rest
  | cons c others ih =>
    rw [asciiChars, List.flatMap_cons, List.append_assoc, stringCodes_charChars, ← asciiChars, ih]
    rfl

theorem ofCode_toNat (c : Char) : Rune.ofCode c.toNat = .char c := by
  have bounds := toNat_bounds c
  rw [Rune.ofCode, dif_neg (by omega), Char.ofNat_toNat]

theorem runesOfCodes_cons {n : Nat} (single : isHighHalf n = false) (codes : List Nat) :
    runesOfCodes (n :: codes) = .ofCode n :: runesOfCodes codes := by
  cases codes with
  | nil => rfl
  | cons low rest => rw [runesOfCodes, single]; rfl

theorem runesOfCodes_units (c : Char) (codes : List Nat) :
    runesOfCodes (units c ++ codes) = .char c :: runesOfCodes codes := by
  have bounds := toNat_bounds c
  by_cases small : c.toNat < 0x10000
  · have single : isHighHalf c.toNat = false := by
      simp only [isHighHalf, Bool.and_eq_false_iff, decide_eq_false_iff_not]
      omega
    rw [units_of_small small, List.singleton_append, runesOfCodes_cons single, ofCode_toNat]
  · have high : isHighHalf (0xd800 + (c.toNat - 0x10000) / 0x400) := by
      simp only [isHighHalf, Bool.and_eq_true, decide_eq_true_eq]
      omega
    have low : isLowHalf (0xdc00 + (c.toNat - 0x10000) % 0x400) := by
      simp only [isLowHalf, Bool.and_eq_true, decide_eq_true_eq]
      omega
    have whole : 0x10000 + (0xd800 + (c.toNat - 0x10000) / 0x400 - 0xd800) * 0x400 +
        (0xdc00 + (c.toNat - 0x10000) % 0x400 - 0xdc00) = c.toNat := by omega
    rw [units, if_neg small, List.cons_append, List.cons_append, List.nil_append, runesOfCodes,
      high, low, whole, Char.ofNat_toNat]
    rfl

theorem runesOfCodes_flatMap (cs : List Char) :
    runesOfCodes (cs.flatMap units) = cs.map .char := by
  induction cs with
  | nil => rfl
  | cons c rest ih => rw [List.flatMap_cons, runesOfCodes_units, ih, List.map_cons]

theorem string_asciiChars (cs rest : List Char) :
    string (asciiChars cs ++ '"' :: rest) = .ok (cs.map .char, rest) := by
  rw [string, stringCodes_asciiChars, expected, ok_bind]
  simp only [runesOfCodes_flatMap]
  rfl

/-- Two quoted texts of which one starts with the other are one text. -/
theorem asciiChars_inj {cs ds rest others : List Char}
    (same : asciiChars cs ++ '"' :: rest = asciiChars ds ++ '"' :: others) :
    cs = ds ∧ rest = others := by
  have read := string_asciiChars cs rest
  rw [same, string_asciiChars] at read
  obtain ⟨codes, behind⟩ := Prod.mk.inj (Except.ok.inj read)
  exact ⟨((List.map_inj_right fun _ _ => Rune.char.inj).mp codes).symm, behind.symm⟩

end Json
end Parley
