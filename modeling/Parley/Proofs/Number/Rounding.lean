import Mathlib.Tactic.Ring
import Mathlib.Tactic.Linarith
import Parley.Number.Decimal

/-!
Rounding depends on the value of a fraction alone, and a number that is representable is rounded to
itself. The nearest binary number of a decimal is therefore the same for all decimals of one value,
and the shortest decimal of a binary number reads back as that number.
-/
namespace Parley

namespace Binary64

theorem roundHalfEven_scale (num den : Nat) {k : Nat} (pos : 0 < k) :
    roundHalfEven (num * k) (den * k) = roundHalfEven num den := by
  have quotient : num * k / (den * k) = num / den := Nat.mul_div_mul_right num den pos
  have remainder : num * k % (den * k) = num % den * k := Nat.mul_mod_mul_right k num den
  have less : den * k < 2 * (num % den * k) ↔ den < 2 * (num % den) := by
    rw [← Nat.mul_assoc]
    exact Nat.mul_lt_mul_right pos
  have same : 2 * (num % den * k) = den * k ↔ 2 * (num % den) = den := by
    rw [← Nat.mul_assoc]
    exact Nat.mul_left_inj (Nat.pos_iff_ne_zero.mp pos)
  simp only [roundHalfEven, quotient, remainder, less, same]

theorem roundHalfEven_exact (num : Nat) {den : Nat} (pos : 0 < den) :
    roundHalfEven (num * den) den = num := by
  have quotient : num * den / den = num := Nat.mul_div_cancel num pos
  have remainder : num * den % den = 0 := Nat.mul_mod_left num den
  unfold roundHalfEven
  simp only [quotient, remainder]
  rw [if_neg (by omega)]

theorem roundHalfEven_of_small {num den : Nat} (small : 2 * num < den) :
    roundHalfEven num den = 0 := by
  have quotient : num / den = 0 := Nat.div_eq_of_lt (by omega)
  have remainder : num % den = num := Nat.mod_eq_of_lt (by omega)
  unfold roundHalfEven
  simp only [quotient, remainder]
  rw [if_neg (by omega)]

theorem ofUnits_scale (negative : Bool) (num den : Nat) {k : Nat} (pos : 0 < k) :
    ofUnits negative (num * k) (den * k) = ofUnits negative num den := by
  have quotient : num * k / (den * k) = num / den := Nat.mul_div_mul_right num den pos
  have rounded (p : Nat) :
      roundHalfEven (num * k) (den * k * Nat.pow 2 p) = roundHalfEven num (den * Nat.pow 2 p) := by
    rw [Nat.mul_right_comm den k]
    exact roundHalfEven_scale num (den * Nat.pow 2 p) pos
  simp only [ofUnits, quotient, rounded]

theorem ofRatio_scale (negative : Bool) (num den : Nat) {k : Nat} (pos : 0 < k) :
    ofRatio negative (num * k) (den * k) = ofRatio negative num den := by
  unfold ofRatio
  rw [Nat.mul_right_comm num k]
  exact ofUnits_scale negative (num * one) den pos

/-- Fractions of one value are rounded to the same number. -/
theorem ofRatio_congr (negative : Bool) {num den num' den' : Nat} (pos : 0 < den) (pos' : 0 < den')
    (same : num * den' = num' * den) : ofRatio negative num den = ofRatio negative num' den' := by
  calc ofRatio negative num den
      = ofRatio negative (num * den') (den * den') := (ofRatio_scale negative num den pos').symm
    _ = ofRatio negative (num' * den) (den' * den) := by rw [same, Nat.mul_comm den den']
    _ = ofRatio negative num' den' := ofRatio_scale negative num' den' pos

theorem ofParts_of_canonical (negative : Bool) {significand power : Nat}
    (h : Canonical significand power) :
    ofParts negative significand power = .finite negative significand power h := dif_pos h

/-- A number that is representable is rounded to itself. -/
theorem ofUnits_exact (negative : Bool) {significand power : Nat}
    (h : Canonical significand power) :
    ofUnits negative (units significand power) 1 = .finite negative significand power h := by
  have bound : significand < 2 ^ 53 := h.significand_lt
  have places : (units significand power).log2 - 52 = power := by
    rcases h.normal with normal | subnormal
    · have least : 2 ^ 52 ≤ significand := normal
      have nonzero : units significand power ≠ 0 := by
        have : 0 < significand * 2 ^ power := Nat.mul_pos (by omega) (Nat.two_pow_pos power)
        exact Nat.pos_iff_ne_zero.mp this
      have exact_log : (units significand power).log2 = 52 + power := by
        rw [Nat.log2_eq_iff nonzero]
        constructor
        · calc 2 ^ (52 + power) = 2 ^ 52 * 2 ^ power := Nat.pow_add 2 52 power
            _ ≤ significand * 2 ^ power := Nat.mul_le_mul_right _ least
        · calc significand * 2 ^ power < 2 ^ 53 * 2 ^ power :=
                Nat.mul_lt_mul_of_pos_right bound (Nat.two_pow_pos power)
            _ = 2 ^ (52 + power + 1) := by rw [← Nat.pow_add]; congr 1; omega
      omega
    · subst subnormal
      have small : (units significand 0).log2 < 53 := by
        by_cases none : units significand 0 = 0
        · rw [none]
          decide
        · rw [Nat.log2_lt none]
          simpa [units] using bound
      omega
  have pos : 0 < Nat.pow 2 power := Nat.two_pow_pos power
  unfold ofUnits
  simp only [Nat.div_one, places, Nat.one_mul]
  rw [units, roundHalfEven_exact significand pos, if_neg (Nat.ne_of_lt h.significand_lt)]
  exact ofParts_of_canonical negative h

/-- What is less than half a unit is rounded to zero. -/
theorem ofUnits_of_small (negative : Bool) {num den : Nat} (small : 2 * num < den) :
    ofUnits negative num den = zero negative := by
  have quotient : num / den = 0 := Nat.div_eq_of_lt (by omega)
  unfold ofUnits
  simp only [quotient, Nat.log2_zero, Nat.zero_sub]
  have one_times : den * Nat.pow 2 0 = den := Nat.mul_one den
  rw [one_times, roundHalfEven_of_small small]
  rfl

/-- What needs a power beyond all canonical ones is rounded to an infinite number. -/
theorem ofUnits_of_large (negative : Bool) {num n : Nat} (large : 2 ^ n ≤ num) (far : 2098 ≤ n) :
    ofUnits negative num 1 = .infinite negative := by
  have nonzero : num ≠ 0 := Nat.ne_of_gt (Nat.lt_of_lt_of_le (Nat.two_pow_pos n) large)
  have places : n ≤ num.log2 := (Nat.le_log2 nonzero).mpr large
  have beyond (significand power : Nat) (h : 2045 < power) :
      ofParts negative significand power = .infinite negative :=
    dif_neg fun canonical => by have := canonical.power_le; omega
  unfold ofUnits
  simp only [Nat.div_one]
  split
  · exact beyond _ _ (by omega)
  · exact beyond _ _ (by omega)

/-! Rounding keeps the sign. -/

theorem isNegative_ofParts (negative : Bool) (significand power : Nat) :
    (ofParts negative significand power).isNegative = negative := by
  unfold ofParts
  split <;> rfl

theorem isNegative_ofRatio (negative : Bool) (num den : Nat) :
    (ofRatio negative num den).isNegative = negative := by
  unfold ofRatio ofUnits
  dsimp only
  split <;> exact isNegative_ofParts _ _ _

end Binary64

namespace Decimal

theorem isNegative_nearest (negative : Bool) (d : Decimal) :
    (d.nearest negative).isNegative = negative := by
  unfold nearest
  split
  · rfl
  · split
    · rfl
    · exact Binary64.isNegative_ofRatio _ _ _

/-- The unit is a power of two; the power is not to be computed. -/
theorem one_eq_two_pow : ∃ k, Binary64.one = 2 ^ k ∧ k = 1074 := ⟨1074, Nat.pow_eq.symm ▸ rfl, rfl⟩

theorem two_pow_le_ten_pow {m n : Nat} (h : m ≤ 3 * n) : 2 ^ m ≤ 10 ^ n := by
  calc 2 ^ m ≤ 2 ^ (3 * n) := Nat.pow_le_pow_right (by decide) h
    _ = (2 ^ 3) ^ n := pow_mul 2 3 n
    _ ≤ 10 ^ n := Nat.pow_le_pow_left (by decide) n

theorem ten_pow_pos (n : Nat) : 0 < 10 ^ n := Nat.pow_pos (by decide)

theorem ratio_den_pos (d : Decimal) : 0 < d.ratio.2 := by
  unfold ratio
  split
  · exact Nat.one_pos
  · exact ten_pow_pos _

/-- A number of `n + 1` binary digits is below half a unit if its point stands more than `n + 400`
decimal places behind them. -/
theorem ofRatio_of_tiny (negative : Bool) {digits n places : Nat} (below : digits < 2 ^ (n + 1))
    (far : n + 401 ≤ places) :
    Binary64.ofRatio negative digits (10 ^ places) = .zero negative := by
  obtain ⟨k, unit, size⟩ := one_eq_two_pow
  obtain ⟨m, rfl⟩ := Nat.exists_eq_add_of_le far
  have huge : 2 ^ (k + 2) ≤ 10 ^ 401 := two_pow_le_ten_pow (by omega)
  have grows : 2 ^ n ≤ 10 ^ n := Nat.pow_le_pow_left (by decide) n
  apply Binary64.ofUnits_of_small
  rw [unit]
  calc 2 * (digits * 2 ^ k)
      < 2 * (2 ^ (n + 1) * 2 ^ k) :=
        Nat.mul_lt_mul_of_pos_left
          (Nat.mul_lt_mul_of_pos_right below (Nat.two_pow_pos k)) (by decide)
    _ = 2 ^ n * 2 ^ (k + 2) := by ring
    _ ≤ 10 ^ n * 10 ^ 401 := Nat.mul_le_mul grows huge
    _ ≤ 10 ^ n * 10 ^ 401 * 10 ^ m := Nat.le_mul_of_pos_right _ (ten_pow_pos m)
    _ = 10 ^ (n + 401 + m) := by rw [pow_add, pow_add]

theorem ofRatio_of_huge (negative : Bool) {digits places : Nat} (some : 1 ≤ digits)
    (far : 401 ≤ places) :
    Binary64.ofRatio negative (digits * 10 ^ places) 1 = .infinite negative := by
  obtain ⟨k, unit, size⟩ := one_eq_two_pow
  have huge : 2 ^ 1024 ≤ 10 ^ places := two_pow_le_ten_pow (by omega)
  have large : 2 ^ (1024 + k) ≤ digits * 10 ^ places * 2 ^ k := by
    calc 2 ^ (1024 + k) = 2 ^ 1024 * 2 ^ k := pow_add 2 1024 k
      _ ≤ 10 ^ places * 2 ^ k := Nat.mul_le_mul_right _ huge
      _ ≤ digits * 10 ^ places * 2 ^ k :=
          Nat.mul_le_mul_right _ (Nat.le_mul_of_pos_left _ some)
  rw [Binary64.ofRatio, unit]
  exact Binary64.ofUnits_of_large negative large (by omega)

/-- The exponents that are settled first are settled rightly. -/
theorem nearest_eq_ofRatio (negative : Bool) (d : Decimal) :
    d.nearest negative = Binary64.ofRatio negative d.ratio.1 d.ratio.2 := by
  obtain ⟨digits, exponent⟩ := d
  unfold nearest
  dsimp only
  split
  · rename_i tiny
    by_cases none : digits = 0
    · have nothing : (⟨digits, exponent⟩ : Decimal).ratio.1 = 0 := by
        unfold ratio
        split <;> simp [none]
      rw [nothing, Binary64.ofRatio, Nat.zero_mul, Binary64.ofUnits_of_small]
      exact ratio_den_pos _
    · have far : exponent + digits.log2 < -400 := tiny.resolve_left none
      have below_zero : ¬ 0 ≤ exponent := by omega
      have places : digits.log2 + 401 ≤ (-exponent).toNat := by omega
      simp only [ratio, below_zero, if_false]
      exact (ofRatio_of_tiny negative Nat.lt_log2_self places).symm
  · rename_i within
    split
    · rename_i far
      have some_digits : 1 ≤ digits := Nat.one_le_iff_ne_zero.mpr fun none => within (.inl none)
      have above_zero : 0 ≤ exponent := by omega
      have places : 401 ≤ exponent.toNat := by omega
      simp only [ratio, above_zero, if_true]
      exact (ofRatio_of_huge negative some_digits places).symm
    · rfl

/-- Zeros at the end of the digits count as much as in the exponent. -/
theorem nearest_shift (negative : Bool) (digits k : Nat) (exponent : Int) :
    nearest negative ⟨digits * Nat.pow 10 k, exponent⟩ =
      nearest negative ⟨digits, exponent + k⟩ := by
  rw [nearest_eq_ofRatio, nearest_eq_ofRatio]
  refine Binary64.ofRatio_congr negative (ratio_den_pos _) (ratio_den_pos _) ?_
  unfold ratio
  by_cases here : 0 ≤ exponent
  · have there : 0 ≤ exponent + k := by omega
    have power : (exponent + k).toNat = k + exponent.toNat := by omega
    simp only [here, there, if_true, power, Nat.pow_eq, pow_add]
    ring
  · by_cases there : 0 ≤ exponent + k
    · have power : k = (-exponent).toNat + (exponent + k).toNat := by omega
      simp only [here, there, if_true, if_false, Nat.pow_eq]
      generalize (exponent + k).toNat = n at power ⊢
      rw [power, pow_add]
      ring
    · have power : (-exponent).toNat = k + (-(exponent + k)).toNat := by omega
      simp only [here, there, if_false, power, Nat.pow_eq, pow_add]
      ring

theorem nearest_of_onGrid {target : Binary64} {num den : Nat} {exponent : Int} {d : Decimal}
    (found : onGrid? target num den exponent = some d) : d.nearest false = target := by
  unfold onGrid? at found
  simpa using List.find?_some found

/-- The exact expansion: a whole count of the unit `2⁻ᵏ` is five to the `k` times as many of the
unit `10⁻ᵏ`. -/
theorem nearest_expansion {k : Nat} (unit : Binary64.one = 2 ^ k) (pos : 0 < k) (units : Nat) :
    nearest false ⟨units * Nat.pow 5 k, -k⟩ = Binary64.ofUnits false units 1 := by
  have below_zero : ¬ 0 ≤ -(k : Int) := by omega
  have power : (-(-(k : Int))).toNat = k := by omega
  have collect : units * Nat.pow 5 k * 2 ^ k = units * Nat.pow 10 k := by
    rw [Nat.mul_assoc, Nat.pow_eq, ← Nat.mul_pow, Nat.pow_eq]
  have scaled := Binary64.ofUnits_scale false units 1 (ten_pow_pos k)
  rw [Nat.one_mul] at scaled
  simp only [nearest_eq_ofRatio, ratio, below_zero, if_false, Binary64.ofRatio, power, unit,
    collect]
  exact scaled

/-- The shortest decimal of a number reads back as that number. -/
theorem nearest_shortest {significand power : Nat} (h : Binary64.Canonical significand power) :
    (shortest significand power h).nearest false = .finite false significand power h := by
  unfold shortest
  dsimp only
  cases search : (List.range 17).findSome? fun (n : Nat) =>
      onGrid? (.finite false significand power h) (Binary64.units significand power) Binary64.one
        (magnitude (Binary64.units significand power) Binary64.one - (n + 1)) with
  | none =>
    obtain ⟨k, unit, rfl⟩ := one_eq_two_pow
    exact (nearest_expansion unit (by decide) _).trans (Binary64.ofUnits_exact false h)
  | some d =>
    obtain ⟨n, _, found⟩ := List.exists_of_findSome?_eq_some search
    exact nearest_of_onGrid found

end Decimal
end Parley
