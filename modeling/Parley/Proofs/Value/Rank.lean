import Mathlib.Data.Int.ConditionallyCompleteOrder
import Mathlib.Data.Rat.Cast.Order
import Mathlib.Data.Sum.Order
import Mathlib.Data.String.Basic
import Mathlib.Order.WithBot
import Parley.Proofs.Number.Rounding
import Parley.Value.Order

/-!
Where values stand. A number stands at its exact value, whether it is whole or binary, and an
infinite one at an end; a text stands by its characters. Equality and order of numbers and of texts
are those of the places where they stand.
-/
namespace Parley

theorem compare_of_strictMono {α β : Type} [LinearOrder α] [LinearOrder β] {f : α → β}
    (mono : StrictMono f) (a b : α) : compare (f a) (f b) = compare a b := by
  rw [← cmp_eq_compare, ← cmp_eq_compare, mono.cmp_map_eq]

theorem swap_compare {α : Type} [LinearOrder α] (a b : α) :
    (compare a b).swap = compare b a := by
  rw [← cmp_eq_compare, ← cmp_eq_compare, cmp_swap]

/-- Numbers with an end on both sides. -/
abbrev Magnitude := WithBot (WithTop ℚ)

namespace Magnitude

open Binary64 (one)

/-- The exact value of a whole count of least units. -/
def ofUnits (units : Int) : Magnitude := ((units / one : ℚ) : WithTop ℚ)

theorem one_pos : 0 < one := by
  obtain ⟨k, power, _⟩ := Decimal.one_eq_two_pow
  rw [power]
  exact Nat.two_pow_pos k

theorem ofUnits_strictMono : StrictMono ofUnits := by
  intro u v less
  have positive : (0 : ℚ) < one := by exact_mod_cast one_pos
  have quotients : (u / one : ℚ) < v / one :=
    div_lt_div_of_pos_right (by exact_mod_cast less) positive
  exact WithBot.coe_lt_coe.mpr (WithTop.coe_lt_coe.mpr quotients)

theorem ofUnits_whole (n : Int) : ofUnits (n * one) = ((n : ℚ) : WithTop ℚ) := by
  have nonzero : (one : ℚ) ≠ 0 := by exact_mod_cast one_pos.ne'
  unfold ofUnits
  push_cast
  rw [mul_div_cancel_right₀ _ nonzero]

theorem bot_lt_ofUnits (u : Int) : ⊥ < ofUnits u := WithBot.bot_lt_coe _

theorem ofUnits_lt_top (u : Int) : ofUnits u < ⊤ := WithBot.coe_lt_coe.mpr (WithTop.coe_lt_top _)

theorem compare_ofUnits (u v : Int) : compare (ofUnits u) (ofUnits v) = compare u v :=
  compare_of_strictMono ofUnits_strictMono u v

theorem compare_mul_one (n m : Int) : compare (n * one) (m * one) = compare n m := by
  have positive : (0 : Int) < one := by exact_mod_cast one_pos
  have mono : StrictMono fun n : Int => n * one := by
    intro u v less
    exact Int.mul_lt_mul_of_pos_right less positive
  exact compare_of_strictMono mono n m

end Magnitude

namespace Binary64

open Magnitude (compare_ofUnits bot_lt_ofUnits ofUnits_lt_top)

/-- The exact value of a number. -/
def magnitude? : Binary64 → Option Magnitude
  | .nan => none
  | .infinite negative => some (if negative then ⊥ else ⊤)
  | .finite negative significand power _ =>
      some (Magnitude.ofUnits (if negative then -(units significand power : Int)
        else units significand power))

/-- Numbers are compared by their exact values. -/
theorem compare?_of_magnitude {x y : Binary64} {p q : Magnitude} (left : x.magnitude? = some p)
    (right : y.magnitude? = some q) : x.compare? y = some (compare p q) := by
  cases x with
  | nan => cases left
  | infinite a =>
    cases left
    cases y with
    | nan => cases right
    | infinite b =>
      cases right
      cases a <;> cases b <;> decide
    | finite b n k h =>
      cases right
      cases a
      · exact congrArg some (compare_gt_iff_gt.mpr (ofUnits_lt_top _)).symm
      · exact congrArg some (compare_lt_iff_lt.mpr (bot_lt_ofUnits _)).symm
  | finite a m k h =>
    cases left
    cases y with
    | nan => cases right
    | infinite b =>
      cases right
      cases b
      · exact congrArg some (compare_lt_iff_lt.mpr (ofUnits_lt_top _)).symm
      · exact congrArg some (compare_gt_iff_gt.mpr (bot_lt_ofUnits _)).symm
    | finite b n l h' =>
      cases right
      rw [compare_ofUnits]
      rfl

/-- A whole number is compared with another by their exact values. -/
theorem compareInt?_of_magnitude (n : Int) {x : Binary64} {p : Magnitude}
    (right : x.magnitude? = some p) :
    compareInt? n x = some (compare (Magnitude.ofUnits (n * one)) p) := by
  cases x with
  | nan => cases right
  | infinite b =>
    cases right
    cases b
    · exact congrArg some (compare_lt_iff_lt.mpr (ofUnits_lt_top _)).symm
    · exact congrArg some (compare_gt_iff_gt.mpr (bot_lt_ofUnits _)).symm
  | finite b m k h =>
    cases right
    rw [compare_ofUnits]
    rfl

theorem magnitude?_eq_none_iff {x : Binary64} : x.magnitude? = none ↔ x = .nan := by
  cases x <;> simp [magnitude?]

end Binary64

/-- The order of two texts is that of their characters. -/
theorem compareText_eq (s t : String) : compareText s t = compare s t := by
  unfold compareText
  rcases lt_trichotomy s t with before | rfl | behind
  · rw [if_pos before, compare_lt_iff_lt.mpr before]
  · rw [if_neg (lt_irrefl s), if_neg (lt_irrefl s), compare_eq_iff_eq.mpr rfl]
  · rw [if_neg behind.asymm, if_pos behind, compare_gt_iff_gt.mpr behind]

namespace Value

/-- The exact value of a number. -/
def magnitude? : Value → Option Magnitude
  | .int n => some ((n : ℚ) : WithTop ℚ)
  | .float x => x.magnitude?
  | _ => none

theorem magnitude?_int (n : Int) :
    magnitude? (.int n) = some (Magnitude.ofUnits (n * Binary64.one)) :=
  congrArg some (Magnitude.ofUnits_whole n).symm

/-- Numbers have the order and the equality of their exact values. -/
theorem order?_of_magnitude {a b : Value} {p q : Magnitude} (left : a.magnitude? = some p)
    (right : b.magnitude? = some q) :
    a.order? b = some (compare p q) ∧ a.same b = (compare p q == .eq) := by
  cases a with
  | int n =>
    rw [magnitude?_int] at left
    cases left
    cases b with
    | int m =>
      rw [magnitude?_int] at right
      cases right
      rw [Magnitude.compare_ofUnits, Magnitude.compare_mul_one, order?, same]
      refine ⟨rfl, ?_⟩
      rw [Bool.eq_iff_iff, beq_iff_eq, beq_iff_eq, compare_eq_iff_eq]
    | float y =>
      rw [order?, same, Binary64.compareInt?_of_magnitude n right]
      exact ⟨rfl, rfl⟩
    | _ => cases right
  | float x =>
    cases b with
    | int m =>
      rw [magnitude?_int] at right
      cases right
      have swapped := swap_compare (Magnitude.ofUnits (m * Binary64.one)) p
      rw [order?, same, Binary64.compareInt?_of_magnitude m left, ← swapped]
      refine ⟨rfl, ?_⟩
      cases compare _ p <;> rfl
    | float y =>
      rw [order?, same, Binary64.compare?_of_magnitude left right]
      exact ⟨rfl, rfl⟩
    | _ => cases right
  | _ => cases left

/-- The place where a value stands: among the numbers or, apart from these, among the texts. -/
def rank? : Value → Option (Magnitude ⊕ₗ String)
  | .text s => some (Sum.inrₗ s)
  | a => a.magnitude?.map Sum.inlₗ

theorem rank?_eq_some_of_kind {a : Value} {r : Magnitude ⊕ₗ String} (ranked : a.rank? = some r) :
    (a.kind = .number ∧ ∃ p, a.magnitude? = some p ∧ r = Sum.inlₗ p) ∨
      ∃ s, a = .text s ∧ r = Sum.inrₗ s := by
  cases a with
  | text s =>
    cases ranked
    exact .inr ⟨s, rfl, rfl⟩
  | int n =>
    cases ranked
    exact .inl ⟨rfl, _, rfl, rfl⟩
  | float x =>
    obtain ⟨p, exact, same⟩ := Option.map_eq_some_iff.mp ranked
    exact .inl ⟨rfl, p, exact, same.symm⟩
  | _ => cases ranked

/-- Numbers, and texts likewise, have the order of the places where they stand. -/
theorem order?_of_rank {a b : Value} {r s : Magnitude ⊕ₗ String} (left : a.rank? = some r)
    (right : b.rank? = some s) (kind : a.kind = b.kind) : a.order? b = some (compare r s) := by
  rcases rank?_eq_some_of_kind left with ⟨number, p, exact, rfl⟩ | ⟨t, rfl, rfl⟩
  · rcases rank?_eq_some_of_kind right with ⟨_, q, exact', rfl⟩ | ⟨u, rfl, rfl⟩
    · rw [(order?_of_magnitude exact exact').1]
      exact congrArg some (compare_of_strictMono Sum.Lex.inl_strictMono p q).symm
    · rw [number] at kind
      cases kind
  · rcases rank?_eq_some_of_kind right with ⟨number, q, exact', rfl⟩ | ⟨u, rfl, rfl⟩
    · rw [number] at kind
      cases kind
    · rw [order?, compareText_eq]
      exact congrArg some (compare_of_strictMono Sum.Lex.inr_strictMono t u).symm

/-- What has no exact value equals no number. -/
theorem same_of_no_magnitude {a b : Value} (number : a.kind = .number)
    (none : b.magnitude? = none) :
    a.same b = false := by
  have apart (x : Binary64) : x.compare? .nan = Option.none := by cases x <;> rfl
  cases b with
  | int m => cases none
  | float y =>
    obtain rfl := Binary64.magnitude?_eq_none_iff.mp none
    cases a with
    | int n => rfl
    | float x =>
      rw [same, apart]
      rfl
    | _ => cases number
  | _ =>
    cases a with
    | int n => rfl
    | float x => rfl
    | _ => cases number

/-- What equals a number or a text stands in the same place. -/
theorem same_iff_rank {a b : Value} {r : Magnitude ⊕ₗ String} (ranked : a.rank? = some r) :
    a.same b = true ↔ b.rank? = some r := by
  rcases rank?_eq_some_of_kind ranked with ⟨number, p, exact, rfl⟩ | ⟨s, rfl, rfl⟩
  · cases there : b.magnitude? with
    | none =>
      rw [same_of_no_magnitude number there]
      cases b with
      | text t => simp [rank?]
      | _ => simp [rank?, there]
    | some q =>
      have place : b.rank? = some (Sum.inlₗ q) := by
        cases b with
        | text t => cases there
        | _ => rw [rank?, there] <;> simp
      rw [(order?_of_magnitude exact there).2, place, beq_iff_eq, compare_eq_iff_eq,
        Option.some_inj]
      exact eq_comm.trans Sum.Lex.inl_strictMono.injective.eq_iff.symm
  · cases b with
    | text t =>
      rw [same, rank?, beq_iff_eq, Option.some_inj]
      exact eq_comm.trans Sum.Lex.inr_strictMono.injective.eq_iff.symm
    | _ => simp [same, rank?]

end Value
end Parley
