import Mathlib.Algebra.BigOperators.Group.List.Basic
import Mathlib.Algebra.Order.BigOperators.Group.List
import Mathlib.Algebra.Order.Field.Rat
import Mathlib.Order.Interval.Set.Defs
import Mathlib.Tactic.Linarith
import Mathlib.Tactic.FieldSimp
import Parley.Random.Choice

/-!
Choosing by weights that are not rounded. Each item is chosen by the draws in one interval, which
begins where that of the item in front of it ends and is as long as the share that the item has in
all weights.
-/
namespace Parley.Weighing

/-- Weights that are added, stretched and compared as rational numbers. -/
def unrounded {m : Type → Type} [Monad m] : Weighing m ℚ where
  nothing := 0
  origin := 0
  add a b := pure (a + b)
  stretch x total := pure (x * total)
  isPositive total := decide (0 < total)
  below a b := decide (a < b)

section Loop

variable {m : Type → Type} [Monad m] {α : Type}

/-- The number of the first weight up to which the sum exceeds a limit, none if the weights come to
their end before. -/
def firstBeyond? (w : Weighing m α) (limit : α) : α → Nat → List α → m (Option Nat)
  | _, _, [] => pure none
  | sum, number, weight :: rest => do
      let sum ← w.add sum weight
      if w.below limit sum then pure (some number) else firstBeyond? w limit sum (number + 1) rest

/-- Where the sum exceeds the limit nowhere, the last weight stands in. -/
theorem firstBeyond_eq [LawfulMonad m] (w : Weighing m α) (limit sum : α) (number : Nat)
    (weights : List α) :
    w.firstBeyond limit sum number weights =
      (fun found => found.getD (number + weights.length - 1)) <$>
        w.firstBeyond? limit sum number weights := by
  induction weights generalizing sum number with
  | nil => simp [firstBeyond, firstBeyond?]
  | cons weight rest ih =>
    rw [firstBeyond, firstBeyond?, map_bind]
    congr
    funext next
    split
    · simp
    · rw [ih, List.length_cons, Nat.add_right_comm, Nat.add_assoc]

end Loop

/-- The sum of the first weights. -/
def partialSum (weights : List ℚ) (k : Nat) : ℚ := (weights.take k).sum

/-- The number of the weight that a draw chooses. -/
def chosen (weights : List ℚ) (d : ℚ) : Nat := Id.run (unrounded.choose (pure d) weights)

/-- Whether a draw falls to a weight: stretched to all weights, it is not below the weights in front
and below these and the weight. -/
def FallsTo (weights : List ℚ) (d : ℚ) (k : Nat) : Prop :=
  k < weights.length ∧ partialSum weights k ≤ d * weights.sum ∧
    d * weights.sum < partialSum weights (k + 1)

/-! Partial sums -/

theorem partialSum_cons_succ (w : ℚ) (rest : List ℚ) (k : Nat) :
    partialSum (w :: rest) (k + 1) = w + partialSum rest k := by
  rw [partialSum, List.take_succ_cons, List.sum_cons, partialSum]

theorem partialSum_succ {weights : List ℚ} {k : Nat} (inside : k < weights.length) :
    partialSum weights (k + 1) = partialSum weights k + weights[k] := by
  rw [partialSum, partialSum, List.sum_take_succ _ _ inside]

theorem partialSum_length (weights : List ℚ) : partialSum weights weights.length = weights.sum := by
  rw [partialSum, List.take_length]

section Sums

variable {weights : List ℚ} (nonneg : ∀ w ∈ weights, 0 ≤ w)
include nonneg

theorem partialSum_mono {j k : Nat} (le : j ≤ k) : partialSum weights j ≤ partialSum weights k := by
  induction le with
  | refl => exact le_rfl
  | @step k _ ih =>
    refine ih.trans ?_
    by_cases inside : k < weights.length
    · rw [partialSum_succ inside]
      linarith [nonneg _ (List.getElem_mem inside)]
    · rw [partialSum, partialSum, List.take_of_length_le (by omega),
        List.take_of_length_le (by omega)]

theorem partialSum_nonneg (k : Nat) : 0 ≤ partialSum weights k :=
  partialSum_mono nonneg (Nat.zero_le k)

theorem partialSum_le_sum {k : Nat} (inside : k ≤ weights.length) :
    partialSum weights k ≤ weights.sum := by
  rw [← partialSum_length]
  exact partialSum_mono nonneg inside

/-- No draw falls to two weights. -/
theorem FallsTo.unique {d : ℚ} {j k : Nat} (left : FallsTo weights d j)
    (right : FallsTo weights d k) : j = k := by
  have apart {j k : Nat} (left : FallsTo weights d j) (right : FallsTo weights d k) : ¬ j < k := by
    intro less
    have sums := partialSum_mono nonneg (Nat.succ_le_of_lt less)
    linarith [left.2.2, right.2.1]
  exact Nat.le_antisymm (Nat.not_lt.mp (apart right left)) (Nat.not_lt.mp (apart left right))

end Sums

/-! The loop -/

variable {m : Type → Type} [Monad m] [LawfulMonad m]

theorem total_unrounded (weights : List ℚ) :
    (unrounded.total weights : m ℚ) = pure weights.sum := by
  have fold (start : ℚ) :
      (weights.foldlM (fun a b => pure (a + b)) start : m ℚ) = pure (start + weights.sum) := by
    induction weights generalizing start with
    | nil => simp
    | cons w rest ih => rw [List.foldlM_cons, pure_bind, ih, List.sum_cons, add_assoc]
  have all := fold 0
  rwa [zero_add] at all

/-- A limit below the sum of all weights is exceeded in the loop, and first at the weight to which
it falls. -/
theorem exists_firstBeyond {limit sum : ℚ} {weights : List ℚ} (number : Nat) (reached : sum ≤ limit)
    (below : limit < sum + weights.sum) :
    ∃ k < weights.length, sum + partialSum weights k ≤ limit ∧
      limit < sum + partialSum weights (k + 1) ∧
        (unrounded.firstBeyond? limit sum number weights : m (Option Nat)) =
          pure (some (number + k)) := by
  induction weights generalizing sum number with
  | nil =>
    rw [List.sum_nil, add_zero] at below
    exact absurd below reached.not_gt
  | cons w rest ih =>
    have step : (unrounded.firstBeyond? limit sum number (w :: rest) : m (Option Nat)) =
        if decide (limit < sum + w) then pure (some number)
          else unrounded.firstBeyond? limit (sum + w) (number + 1) rest :=
      pure_bind _ _
    rw [List.sum_cons, ← add_assoc] at below
    by_cases here : limit < sum + w
    · refine ⟨0, Nat.zero_lt_succ _, ?_, ?_, ?_⟩
      · simpa [partialSum] using reached
      · simpa [partialSum] using here
      · rw [step, decide_eq_true here]
        rfl
    · obtain ⟨k, inside, least, most, found⟩ := ih (number + 1) (not_lt.mp here) below
      refine ⟨k + 1, Nat.succ_lt_succ inside, ?_, ?_, ?_⟩
      · rwa [partialSum_cons_succ, ← add_assoc]
      · rwa [partialSum_cons_succ, ← add_assoc]
      · rw [step, decide_eq_false here, if_neg Bool.false_ne_true, found, Nat.add_right_comm,
          Nat.add_assoc]

theorem firstBeyond_unrounded (limit sum : ℚ) (number : Nat) (weights : List ℚ) :
    (unrounded.firstBeyond limit sum number weights : m Nat) =
      pure (Id.run (unrounded.firstBeyond limit sum number weights)) := by
  induction weights generalizing sum number with
  | nil => rfl
  | cons w rest ih =>
    have step {m : Type → Type} [Monad m] [LawfulMonad m] :
        (unrounded.firstBeyond limit sum number (w :: rest) : m Nat) =
          if decide (limit < sum + w) then pure number
          else unrounded.firstBeyond limit (sum + w) (number + 1) rest :=
      pure_bind _ _
    rw [step, step (m := Id), ih]
    split <;> rfl

/-! The choice -/

variable {weights : List ℚ}

theorem choose_unrounded (weights : List ℚ) (draw : m ℚ) :
    unrounded.choose draw weights =
      if 0 < weights.sum then
        (fun d => Id.run (unrounded.firstBeyond (d * weights.sum) 0 0 weights)) <$> draw
      else pure 0 := by
  have step : unrounded.choose draw weights =
      (do
        let total ← unrounded.total weights
        if decide (0 < total) then
          let limit ← unrounded.stretch (← draw) total
          unrounded.firstBeyond limit 0 0 weights
        else pure 0) := rfl
  rw [step, total_unrounded, pure_bind, map_eq_pure_bind]
  by_cases positive : 0 < weights.sum
  · rw [decide_eq_true positive, if_pos rfl, if_pos positive]
    congr
    funext d
    exact (pure_bind _ _).trans (firstBeyond_unrounded _ _ _ _)
  · rw [decide_eq_false positive, if_neg Bool.false_ne_true, if_neg positive]

theorem chosen_of_positive (positive : 0 < weights.sum) (d : ℚ) :
    chosen weights d = Id.run (unrounded.firstBeyond (d * weights.sum) 0 0 weights) := by
  rw [chosen, choose_unrounded, if_pos positive]
  rfl

/-- A draw falls to the weight that it chooses, and the loop ends there. -/
theorem fallsTo_chosen (positive : 0 < weights.sum) {d : ℚ} (least : 0 ≤ d) (below : d < 1) :
    FallsTo weights d (chosen weights d) ∧
      Id.run (unrounded.firstBeyond? (d * weights.sum) 0 0 weights) = some (chosen weights d) := by
  have reached : 0 ≤ d * weights.sum := mul_nonneg least positive.le
  have short : d * weights.sum < 0 + weights.sum := by
    rw [zero_add]
    exact mul_lt_of_lt_one_left positive below
  obtain ⟨k, inside, from_here, to_here, found⟩ :=
    exists_firstBeyond (m := Id) 0 reached short
  rw [zero_add] at from_here to_here
  have number : chosen weights d = k := by
    rw [chosen_of_positive positive, firstBeyond_eq, found]
    simp
  rw [number, found]
  exact ⟨⟨inside, from_here, to_here⟩, by simp⟩

/-- The draws that choose a weight are those of its interval. -/
theorem setOf_chosen (nonneg : ∀ w ∈ weights, 0 ≤ w) (positive : 0 < weights.sum) {k : Nat}
    (inside : k < weights.length) :
    {d | 0 ≤ d ∧ d < 1 ∧ chosen weights d = k} =
      Set.Ico (partialSum weights k / weights.sum) (partialSum weights (k + 1) / weights.sum) := by
  ext d
  rw [Set.mem_ofPred_eq, Set.mem_Ico, div_le_iff₀ positive, lt_div_iff₀ positive]
  constructor
  · rintro ⟨least, below, rfl⟩
    exact (fallsTo_chosen positive least below).1.2
  · rintro ⟨from_here, to_here⟩
    have least : 0 ≤ d :=
      nonneg_of_mul_nonneg_left ((partialSum_nonneg nonneg k).trans from_here) positive
    have below : d < 1 := by
      have short := to_here.trans_le (partialSum_le_sum nonneg inside)
      exact lt_of_mul_lt_mul_right (by rwa [one_mul]) positive.le
    refine ⟨least, below, ?_⟩
    exact FallsTo.unique nonneg (fallsTo_chosen positive least below).1 ⟨inside, from_here, to_here⟩

/-- If there is any weight, one number is taken and each draw falls to the one weight that it
chooses, so that a weight is chosen by the draws of an interval as long as its share. If there is
none, the first item is chosen and no number is taken. -/
theorem chosen_by_intervals (nonneg : ∀ w ∈ weights, 0 ≤ w) :
    (weights.sum = 0 → ∀ (σ : Type) (draw : StateM σ ℚ) (s : σ),
      unrounded.choose draw weights s = (0, s)) ∧
    (0 < weights.sum →
      (∀ (σ : Type) (draw : StateM σ ℚ) (s : σ),
        unrounded.choose draw weights s = (chosen weights (draw s).1, (draw s).2)) ∧
      (∀ d, 0 ≤ d → d < 1 →
        (∀ k, FallsTo weights d k ↔ k = chosen weights d) ∧
        Id.run (unrounded.firstBeyond? (d * weights.sum) 0 0 weights) =
          some (chosen weights d)) ∧
      ∀ (k : Nat) (inside : k < weights.length),
        {d | 0 ≤ d ∧ d < 1 ∧ chosen weights d = k} =
          Set.Ico (partialSum weights k / weights.sum)
            (partialSum weights (k + 1) / weights.sum) ∧
        partialSum weights (k + 1) / weights.sum - partialSum weights k / weights.sum =
          weights[k] / weights.sum ∧
        (weights[k] = 0 → ∀ d, 0 ≤ d → d < 1 → chosen weights d ≠ k)) := by
  refine ⟨?_, fun positive => ⟨?_, ?_, ?_⟩⟩
  · intro zero σ draw s
    rw [choose_unrounded, if_neg zero.not_gt]
    rfl
  · intro σ draw s
    rw [choose_unrounded, if_pos positive, chosen_of_positive positive]
    rfl
  · intro d least below
    obtain ⟨falls, ended⟩ := fallsTo_chosen positive least below
    refine ⟨fun k => ⟨fun other => FallsTo.unique nonneg other falls, ?_⟩, ended⟩
    rintro rfl
    exact falls
  · intro k inside
    have share := partialSum_succ inside
    refine ⟨setOf_chosen nonneg positive inside, ?_, ?_⟩
    · rw [← sub_div, share, add_sub_cancel_left]
    · intro zero d least below same
      have falls := (fallsTo_chosen positive least below).1
      rw [same, FallsTo, share, zero, add_zero] at falls
      exact absurd falls.2.2 falls.2.1.not_gt

/-- Of one and three, among zeros, the first is chosen by the draws below a quarter. -/
theorem quarter_falls_to_three :
    (∀ w ∈ ([0, 1, 0, 3, 0] : List ℚ), 0 ≤ w) ∧ 0 < ([0, 1, 0, 3, 0] : List ℚ).sum ∧
    chosen [0, 1, 0, 3, 0] (1 / 4) = 3 ∧
    {d | 0 ≤ d ∧ d < 1 ∧ chosen [0, 1, 0, 3, 0] d = 1} = Set.Ico (0 : ℚ) (1 / 4) ∧
    (∀ d, 0 ≤ d → d < 1 → chosen [0, 1, 0, 3, 0] d ≠ 0) ∧
    ([0, 0] : List ℚ).sum = 0 ∧
    ∀ (draw : StateM Nat ℚ), unrounded.choose draw [0, 0] 7 = (0, 7) := by
  have nonneg : ∀ w ∈ ([0, 1, 0, 3, 0] : List ℚ), 0 ≤ w := by simp
  have positive : 0 < ([0, 1, 0, 3, 0] : List ℚ).sum := by norm_num
  have nothing : ([0, 0] : List ℚ).sum = 0 := by norm_num
  obtain ⟨_, each, intervals⟩ := (chosen_by_intervals nonneg).2 positive
  refine ⟨nonneg, positive, ?_, ?_, ?_, nothing, ?_⟩
  · have falls : FallsTo [0, 1, 0, 3, 0] (1 / 4) 3 := by
      norm_num [FallsTo, partialSum]
    exact (((each (1 / 4) (by norm_num) (by norm_num)).1 3).mp falls).symm
  · rw [(intervals 1 (by simp)).1]
    norm_num [partialSum]
  · exact (intervals 0 (by simp)).2.2 rfl
  · intro draw
    exact (chosen_by_intervals (by simp)).1 nothing Nat draw 7

end Parley.Weighing
