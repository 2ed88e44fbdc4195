import Mathlib.Data.List.TakeWhile
import Parley.Proofs.Number.Digits
import Parley.Time.LocalTime

/-!
The standard form of times of day: what is in standard form is read as the same time.
-/
namespace Parley.LocalTime

open Numeral

/-- Whether a time is one of a day. -/
def IsClock (t : LocalTime) : Prop := t.hour < 24 ∧ t.minute < 60

theorem isClock_of_parseChars {cs : List Char} {t : LocalTime} (read : parseChars? cs = some t) :
    t.IsClock := by
  obtain ⟨⟨values, leftOver⟩, _, rest⟩ := Option.bind_eq_some_iff.mp read
  dsimp only at rest
  rw [Option.ite_none_left_eq_some, Option.ite_none_right_eq_some] at rest
  obtain ⟨_, ⟨hours, minutes, _⟩, same⟩ := rest
  cases same
  exact ⟨hours, minutes⟩

theorem digit?_digitChar {d : Nat} (small : d < 10) : digit? d.digitChar = some d := by
  rw [digit?, if_pos (isPlainDigit_digitChar small)]
  exact congrArg some (Nat.toNat_digitChar_sub_48_of_lt_ten small)

theorem twoDigits?_twoPlaces {n : Nat} (small : n < 100) (rest : List Char) :
    twoDigits? (twoPlaces n ++ rest) = some (n, rest) := by
  have tens : digit? (n / 10 % 10).digitChar = some (n / 10 % 10) :=
    digit?_digitChar (Nat.mod_lt _ (by decide))
  have ones : digit? (n % 10).digitChar = some (n % 10) :=
    digit?_digitChar (Nat.mod_lt _ (by decide))
  have value : 10 * (n / 10 % 10) + n % 10 = n := by omega
  simp [twoPlaces, twoDigits?, tens, ones, value]

theorem fields?_clock {hour minute : Nat} (hours : hour < 100) (minutes : minute < 100) :
    fields? false [] 3 (twoPlaces hour ++ ':' :: twoPlaces minute) =
      some ⟨[hour, minute], false⟩ := by
  have second := twoDigits?_twoPlaces minutes []
  rw [List.append_nil] at second
  rw [fields?, twoDigits?_twoPlaces hours]
  simp [twoPlaces, fields?] at second ⊢
  simp [second]

/-- The characters of a time are digits and a colon. -/
theorem mem_text {t : LocalTime} {c : Char} (member : c ∈ t.text.toList) :
    isPlainDigit c ∨ c = ':' := by
  have digit (n : Nat) : isPlainDigit (n % 10).digitChar :=
    isPlainDigit_digitChar (Nat.mod_lt n (by decide))
  simp only [text, twoPlaces, String.toList_ofList, List.mem_append, List.mem_cons,
    List.not_mem_nil, or_false] at member
  rcases member with ((rfl | rfl) | rfl) | rfl | rfl
  · exact .inl (digit _)
  · exact .inl (digit _)
  · exact .inr rfl
  · exact .inl (digit _)
  · exact .inl (digit _)

theorem toNat_of_mem_text {t : LocalTime} {c : Char} (member : c ∈ t.text.toList) :
    48 ≤ c.toNat ∧ c.toNat ≤ 58 := by
  rcases mem_text member with digit | rfl
  · have range := isPlainDigit_iff.mp digit
    omega
  · decide

theorem parseChars?_text {t : LocalTime} (clock : t.IsClock) :
    parseChars? t.text.toList = some t := by
  obtain ⟨hours, minutes⟩ := clock
  have written : t.text.toList = twoPlaces t.hour ++ ':' :: twoPlaces t.minute := by
    simp [text]
  have inside : ∀ c ∈ t.text.toList, !startsZone c := by
    intro c member
    have range := toNat_of_mem_text member
    have other (d : Char) (out : d.toNat < 48 ∨ 58 < d.toNat) : (c == d) = false := by
      refine beq_false_of_ne ?_
      rintro rfl
      omega
    simp [startsZone, other '+' (by decide), other '-' (by decide), other 'Z' (by decide)]
  have day : t.hour < 100 := by omega
  have sixty : t.minute < 100 := by omega
  unfold parseChars?
  split
  · rename_i rest start
    have range := toNat_of_mem_text (t := t) (c := 'T') (by rw [start]; exact List.mem_cons_self)
    exact absurd range (by decide)
  · dsimp only
    rw [List.takeWhile_eq_self_iff.2 inside, List.dropWhile_eq_nil_iff.mpr inside, written,
      fields?_clock day sixty]
    simp [isZone, hours, minutes]

theorem lower_text_ne (t : LocalTime) : lower t.text ≠ "now" := by
  intro same
  have colon : ':' ∈ (lower t.text).toList := by
    rw [lower, String.toList_ofList]
    exact List.mem_map.mpr ⟨':', by simp [text], by decide⟩
  rw [same] at colon
  revert colon
  decide

theorem printed_of_normalize {s u : String} (read : normalize? s = some u) :
    ∀ c ∈ u.toList, 0x20 ≤ c.toNat ∧ c.toNat ≤ 0x7e := by
  unfold normalize? at read
  split at read
  · cases read
    decide
  · obtain ⟨t, _, rfl⟩ := Option.map_eq_some_iff.mp read
    intro c member
    have range := toNat_of_mem_text member
    omega

/-- The standard form is its own. -/
theorem normalize_of_normalize {s u : String} (read : normalize? s = some u) :
    normalize? u = some u := by
  unfold normalize? at read
  split at read
  · cases read
    rfl
  · obtain ⟨t, parsed, rfl⟩ := Option.map_eq_some_iff.mp read
    rw [normalize?, if_neg (lower_text_ne t), parseChars?_text (isClock_of_parseChars parsed)]
    rfl

end Parley.LocalTime
