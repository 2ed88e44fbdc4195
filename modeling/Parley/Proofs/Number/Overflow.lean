import Parley.Proofs.Number.Rounding

/-!
Where rounding leaves the finite numbers: exactly from the value that lies halfway between the
largest of them and the power of two that would follow it.
-/
namespace Parley.Binary64

/-- The least whole number that is rounded to an infinite one. -/
def limit : Nat := (2 ^ 54 - 1) * 2 ^ 970

theorem roundHalfEven_le {num den k : Nat} (below : num < k * den) :
    roundHalfEven num den ≤ k := by
  have quotient : num / den < k := Nat.div_lt_of_lt_mul (Nat.mul_comm k den ▸ below)
  unfold roundHalfEven
  dsimp only
  split <;> omega

theorem le_roundHalfEven {num den k : Nat} (pos : 0 < den) (reached : k * den ≤ num) :
    k ≤ roundHalfEven num den := by
  have quotient : k ≤ num / den := (Nat.le_div_iff_mul_le pos).mpr reached
  unfold roundHalfEven
  dsimp only
  split <;> omega

/-- From halfway on, what lies above an odd number is rounded up. -/
theorem roundHalfEven_eq_succ_iff {num den k : Nat} (odd : k % 2 = 1)
    (reached : k * den ≤ num) (below : num < (k + 1) * den) :
    roundHalfEven num den = k + 1 ↔ (2 * k + 1) * den ≤ 2 * num := by
  have quotient : num / den = k :=
    Nat.div_eq_of_lt_le reached below
  have split_off := Nat.div_add_mod num den
  have halfway : (2 * k + 1) * den = 2 * (k * den) + den := by ring
  rw [quotient, Nat.mul_comm den k] at split_off
  unfold roundHalfEven
  dsimp only
  rw [quotient, halfway]
  split <;> omega

/-- The power that a rounded number gets is the least one that leaves its significand room. -/
theorem power_bounds {num den : Nat} (pos : 0 < den) :
    num < 2 ^ 53 * (den * 2 ^ ((num / den).log2 - 52)) ∧
      ((num / den).log2 - 52 = 0 ∨ 2 ^ 52 * (den * 2 ^ ((num / den).log2 - 52)) ≤ num) := by
  generalize places : (num / den).log2 - 52 = power
  have regroup (k : Nat) : 2 ^ k * (den * 2 ^ power) = 2 ^ (k + power) * den := by
    rw [pow_add]
    ring
  rw [regroup, regroup]
  constructor
  · refine (Nat.div_lt_iff_lt_mul pos).mp ?_
    calc num / den < 2 ^ ((num / den).log2 + 1) := Nat.lt_log2_self
      _ ≤ 2 ^ (53 + power) := Nat.pow_le_pow_right (by decide) (by omega)
  · refine (Nat.eq_zero_or_pos power).imp_right fun some => ?_
    refine (Nat.le_div_iff_mul_le pos).mp ?_
    have nonzero : num / den ≠ 0 := by
      intro none
      rw [none] at places
      simp at places
      omega
    exact (Nat.le_log2 nonzero).mp (by omega)

theorem isFinite_ofParts_iff (negative : Bool) (significand power : Nat) :
    (ofParts negative significand power).isFinite ↔ Canonical significand power := by
  unfold ofParts
  split
  case isTrue canonical => simpa [isFinite] using canonical
  case isFalse none => simpa [isFinite] using none

/-- A significand that fills its room moves on to the next power. -/
theorem isFinite_ofUnits_iff_power (negative : Bool) {num den : Nat} (pos : 0 < den) :
    (ofUnits negative num den).isFinite ↔
      (num / den).log2 - 52 ≤ 2044 ∨
        (num / den).log2 - 52 = 2045 ∧
          roundHalfEven num (den * 2 ^ ((num / den).log2 - 52)) ≠ 2 ^ 53 := by
  obtain ⟨room, least⟩ := @power_bounds num den pos
  unfold ofUnits
  dsimp only
  generalize (num / den).log2 - 52 = power at room least ⊢
  have grid : 0 < den * 2 ^ power := Nat.mul_pos pos (Nat.two_pow_pos power)
  have most : roundHalfEven num (den * 2 ^ power) ≤ 2 ^ 53 := roundHalfEven_le room
  have normal : 2 ^ 52 ≤ roundHalfEven num (den * 2 ^ power) ∨ power = 0 :=
    least.symm.imp_left (le_roundHalfEven grid)
  simp only [Nat.pow_eq]
  generalize roundHalfEven num (den * 2 ^ power) = significand at most normal ⊢
  split
  case isTrue full =>
    rw [isFinite_ofParts_iff]
    constructor
    · intro canonical
      have := canonical.power_le
      omega
    · intro small
      exact ⟨by decide, by omega, .inl (by decide)⟩
  case isFalse less =>
    rw [isFinite_ofParts_iff]
    constructor
    · intro canonical
      have := canonical.power_le
      omega
    · intro small
      have below : significand < 2 ^ 53 := Nat.lt_of_le_of_ne most less
      exact ⟨below, by omega, normal⟩

/-- The last power is named, as it is not to be computed. -/
theorem isFinite_ofUnits_iff (negative : Bool) {num den k : Nat} (pos : 0 < den)
    (last : k = 2044) :
    (ofUnits negative num den).isFinite ↔ num < (2 ^ 54 - 1) * (den * 2 ^ k) := by
  obtain ⟨room, least⟩ := @power_bounds num den pos
  rw [isFinite_ofUnits_iff_power negative pos]
  generalize (num / den).log2 - 52 = power at room least ⊢
  have unit : 0 < den * 2 ^ k := Nat.mul_pos pos (Nat.two_pow_pos k)
  have doubled : den * 2 ^ (k + 1) = 2 * (den * 2 ^ k) := by ring
  have fourfold : den * 2 ^ (k + 2) = 4 * (den * 2 ^ k) := by ring
  rcases Nat.lt_trichotomy power (k + 1) with small | rfl | large
  · have grows : den * 2 ^ power ≤ den * 2 ^ k :=
      Nat.mul_le_mul_left den (Nat.pow_le_pow_right (by decide) (by omega))
    exact iff_of_true (.inl (by omega)) (by omega)
  · rw [doubled] at room least ⊢
    have reached := least.resolve_left (by omega)
    by_cases near : (2 ^ 53 - 1) * (2 * (den * 2 ^ k)) ≤ num
    · have carried := roundHalfEven_eq_succ_iff (by decide) near room
      constructor
      · intro finite
        have short := (finite.resolve_left (by omega)).2
        have halfway := mt carried.mpr short
        omega
      · intro inside
        exact .inr ⟨by omega, fun full => by have := carried.mp full; omega⟩
    · have below : roundHalfEven num (2 * (den * 2 ^ k)) ≤ 2 ^ 53 - 1 :=
        roundHalfEven_le (by omega)
      exact iff_of_true (.inr ⟨by omega, by omega⟩) (by omega)
  · have grows : den * 2 ^ (k + 2) ≤ den * 2 ^ power :=
      Nat.mul_le_mul_left den (Nat.pow_le_pow_right (by decide) (by omega))
    have reached := least.resolve_left (by omega)
    exact iff_of_false (by omega) (by omega)

theorem isFinite_ofRatio_iff (negative : Bool) {num den : Nat} (pos : 0 < den) :
    (ofRatio negative num den).isFinite ↔ num < limit * den := by
  obtain ⟨k, unit, size⟩ := Decimal.one_eq_two_pow
  have scaled : (2 ^ 54 - 1) * (den * 2 ^ (970 + k)) = limit * den * 2 ^ k := by
    rw [limit, pow_add]
    generalize 2 ^ 970 = top
    ring
  have last : 970 + k = 2044 := by omega
  rw [ofRatio, isFinite_ofUnits_iff negative pos last, unit, scaled]
  exact Nat.mul_lt_mul_right (Nat.two_pow_pos k)

/-- A whole number is too large for a binary one from the limit on. -/
theorem isFinite_ofInt_iff (n : Int) : (ofInt n).isFinite ↔ n.natAbs < limit := by
  rw [ofInt, isFinite_ofRatio_iff _ Nat.one_pos, Nat.mul_one]

end Parley.Binary64
