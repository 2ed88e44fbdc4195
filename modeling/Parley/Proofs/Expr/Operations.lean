import Parley.Proofs.Number.Overflow
import Parley.Proofs.Outcome

/-!
The operations on values that end in a failure which is no evaluation error: arithmetic on a whole
number that is too large for a binary one, positions that are no finite number, and errors whose
message would show a whole number of too many digits.
-/
namespace Parley

/-- Whether a failure is other than that an expression has no value. -/
def Failure.IsForeign (f : Failure) : Prop := ∀ error, f ≠ .evaluation error

/-- What an evaluation does with values that it has. -/
inductive Expr.Operation where
  | unary (op : UnaryOp) (operand : Value)
  | binary (op : BinaryOp) (left right : Value)
  | index (container position : Value)
  | member (container : Value) (name : String)

def Expr.Operation.result : Operation → Except Failure Value
  | unary op operand => operand.unary op
  | binary op left right => Value.binary op left right
  | index container position => container.index position
  | member container name => container.member name

def BinaryOp.IsArithmetic (op : BinaryOp) : Prop :=
  op = .add ∨ op = .sub ∨ op = .mul ∨ op = .div ∨ op = .mod

/-- How many positions a list or a text has. -/
def Value.size? : Value → Option Nat
  | .list items => some items.length
  | .text s => some s.toList.length
  | _ => none

open Binary64 (limit)

/-- An operation and the foreign failure that it ends in. -/
inductive Expr.Operation.Stumbles : Operation → Failure → Prop
  | large_left {op : BinaryOp} {n : Int} {x : Binary64} (arithmetic : op.IsArithmetic)
      (large : limit ≤ n.natAbs) (defined : op = .div ∨ op = .mod → x.isZero = false) :
      Stumbles (.binary op (.int n) (.float x)) .overflow
  | large_right {op : BinaryOp} {x : Binary64} {n : Int} (arithmetic : op.IsArithmetic)
      (large : limit ≤ n.natAbs) : Stumbles (.binary op (.float x) (.int n)) .overflow
  | large_quotient {a b : Int} (defined : b ≠ 0) (broken : ¬ b ∣ a)
      (large : limit * b.natAbs ≤ a.natAbs) : Stumbles (.binary .div (.int a) (.int b)) .overflow
  | infinite_position {container : Value} {size : Nat} {negative : Bool}
      (sized : container.size? = some size) :
      Stumbles (.index container (.float (.infinite negative))) .overflow
  | no_position {container : Value} {size : Nat} (sized : container.size? = some size) :
      Stumbles (.index container (.float .nan)) .noPosition
  | long_position {container : Value} {size : Nat} {n : Int}
      (sized : container.size? = some size) (outside : n < 0 ∨ size ≤ n)
      (long : isWritableInt n = false) : Stumbles (.index container (.int n)) .tooLong
  | long_index {container index : Value} {size : Nat} (sized : container.size? = some size)
      (other : index.kind ≠ .number) (long : index.isWritable = false) :
      Stumbles (.index container index) .tooLong
  | long_operand {operand : Value} (other : operand.kind ≠ .number)
      (long : operand.isWritable = false) : Stumbles (.unary .neg operand) .tooLong
  | long_behind {s : String} {v : Value} (long : v.isWritable = false) :
      Stumbles (.binary .add (.text s) v) .tooLong
  | long_before {v : Value} {s : String} (long : v.isWritable = false) :
      Stumbles (.binary .add v (.text s)) .tooLong
  | long_item {v : Value} {s : String} (long : v.isWritable = false) :
      Stumbles (.binary .among v (.text s)) .tooLong

namespace Number

/-- Whether only one of two numbers is whole, and that one is too large for a binary number. -/
def Unfit : Number → Number → Prop
  | whole n, binary _ | binary _, whole n => limit ≤ n.natAbs
  | _, _ => False

/-- Whether the quotient of two whole numbers is neither whole nor small enough for a binary
number. -/
def Remote : Number → Number → Prop
  | whole a, whole b => ¬ b ∣ a ∧ limit * b.natAbs ≤ a.natAbs
  | _, _ => False

/-- The arithmetic on numbers, with a divisor that is not zero. -/
def combine (op : BinaryOp) (x y : Number) : Except Failure Number :=
  match op with
  | .add => x.add y
  | .sub => x.sub y
  | .mul => x.mul y
  | .mod => x.modulo y
  | _ => x.div y

theorem toBinary_whole_eq_error_iff {n : Int} {f : Failure} :
    (whole n).toBinary = .error f ↔ f = .overflow ∧ limit ≤ n.natAbs := by
  have finite := Binary64.isFinite_ofInt_iff n
  unfold toBinary
  dsimp only
  split
  case isTrue small => simp [finite.mp small]
  case isFalse large => simp [Nat.not_lt.mp (mt finite.mpr large), eq_comm]

@[simp] theorem toBinary_binary (x : Binary64) : (binary x).toBinary = .ok x := rfl

theorem unfit_left (n : Int) (x : Binary64) : (whole n).Unfit (binary x) ↔ limit ≤ n.natAbs :=
  Iff.rfl

theorem unfit_right (x : Binary64) (n : Int) : (binary x).Unfit (whole n) ↔ limit ≤ n.natAbs :=
  Iff.rfl

theorem remote_whole (a b : Int) :
    (whole a).Remote (whole b) ↔ ¬ b ∣ a ∧ limit * b.natAbs ≤ a.natAbs := Iff.rfl

variable {onWhole : Int → Int → Number} {onBinary : Binary64 → Binary64 → Binary64}
  {f : Failure}

theorem lift_mixed {x y : Number} (mixed : ∀ a b, ¬ (x = whole a ∧ y = whole b)) :
    lift onWhole onBinary x y = x.toBinary >>= fun x =>
      y.toBinary >>= fun y => .ok (binary (onBinary x y)) := by
  cases x with
  | whole a =>
    cases y with
    | whole b => exact (mixed a b ⟨rfl, rfl⟩).elim
    | binary y => rfl
  | binary x => rfl

/-- Mixed operands fail by the whole one alone. -/
theorem lift_eq_error_iff {x y : Number} :
    lift onWhole onBinary x y = .error f ↔ f = .overflow ∧ x.Unfit y := by
  cases x with
  | whole a =>
    cases y with
    | whole b => exact iff_of_false (fun failed => by cases failed) And.right
    | binary y =>
      rw [lift_mixed (by simp), bind_eq_error_iff, toBinary_whole_eq_error_iff, unfit_left]
      simp
  | binary x =>
    cases y with
    | whole b =>
      rw [lift_mixed (by simp), toBinary_binary, ok_bind, bind_eq_error_iff,
        toBinary_whole_eq_error_iff, unfit_right]
      simp
    | binary y => exact iff_of_false (fun failed => by cases failed) And.right

theorem div_whole_eq_error_iff {a b : Int} (defined : b ≠ 0) :
    (whole a).div (whole b) = .error f ↔ f = .overflow ∧ (whole a).Remote (whole b) := by
  have finite := @Binary64.isFinite_ofRatio_iff (decide (a < 0) ^^ decide (b < 0)) a.natAbs b.natAbs
    (Int.natAbs_pos.mpr defined)
  have divides : Int.fmod a b = 0 ↔ b ∣ a :=
    ⟨Int.dvd_of_fmod_eq_zero, Int.fmod_eq_zero_of_dvd⟩
  rw [remote_whole]
  unfold div
  dsimp only
  split
  case isTrue whole =>
    refine iff_of_false (fun failed => by cases failed) ?_
    rintro ⟨-, broken, -⟩
    exact broken (divides.mp whole)
  case isFalse broken =>
    split
    case isTrue small =>
      refine iff_of_false (fun failed => by cases failed) ?_
      rintro ⟨-, -, large⟩
      exact Nat.not_le.mpr (finite.mp small) large
    case isFalse large =>
      have reached := Nat.not_lt.mp (mt finite.mpr large)
      constructor
      · intro failed
        exact ⟨(Except.error.inj failed).symm, mt divides.mpr broken, reached⟩
      · rintro ⟨rfl, -⟩
        rfl

theorem div_mixed_eq_error_iff {x y : Number}
    (mixed : ∀ a b, ¬ (x = whole a ∧ y = whole b)) :
    x.div y = .error f ↔ f = .overflow ∧ x.Unfit y := by
  have same : x.div y = lift (fun a _ => whole a) Binary64.div x y := by
    cases x with
    | whole a =>
      cases y with
      | whole b => exact (mixed a b ⟨rfl, rfl⟩).elim
      | binary y => rfl
    | binary x => rfl
  rw [same, lift_eq_error_iff]

theorem combine_eq_error_iff {op : BinaryOp} {x y : Number}
    (arithmetic : op.IsArithmetic) (defined : op = .div ∨ op = .mod → y.isZero = false) :
    combine op x y = .error f ↔ f = .overflow ∧ (x.Unfit y ∨ op = .div ∧ x.Remote y) := by
  rcases arithmetic with rfl | rfl | rfl | rfl | rfl
  · simp [combine, add, lift_eq_error_iff]
  · simp [combine, sub, lift_eq_error_iff]
  · simp [combine, mul, lift_eq_error_iff]
  · change x.div y = .error f ↔ _
    cases x with
    | whole a =>
      cases y with
      | whole b =>
        have nonzero : b ≠ 0 := by simpa [isZero] using defined (.inl rfl)
        simp [div_whole_eq_error_iff nonzero, Unfit]
      | binary y => simp [div_mixed_eq_error_iff, Remote]
    | binary x => simp [div_mixed_eq_error_iff, Remote]
  · simp [combine, modulo, lift_eq_error_iff]

end Number

namespace Value

theorem eq_of_asNumber {v : Value} {x : Number} (number : v.asNumber? = some x) : v = x.value := by
  cases v <;> cases number <;> rfl

theorem asNumber_value (x : Number) : x.value.asNumber? = some x := by
  cases x <;> rfl

theorem asNumber_eq_none_iff {v : Value} : v.asNumber? = none ↔ v.kind ≠ .number := by
  cases v <;> simp [asNumber?, kind]

theorem format_eq_error_iff {v : Value} {f : Failure} :
    v.format = .error f ↔ f = .tooLong ∧ v.isWritable = false := by
  unfold format
  split
  case isTrue short => simp [short]
  case isFalse long => simp [long, eq_comm]

/-- Where what is made of the text of a value does not fail, the text itself does. -/
theorem unwritable_of_bind {α : Type} {v : Value} {next : String → Except Failure α} {f : Failure}
    (failed : v.format >>= next = .error f) (further : ∀ s, next s ≠ .error f) :
    f = .tooLong ∧ v.isWritable = false := by
  rcases bind_eq_error_iff.mp failed with unwritten | ⟨s, _, later⟩
  · exact format_eq_error_iff.mp unwritten
  · exact (further s later).elim

theorem arithmetic_value {op : BinaryOp} {x y : Number} (arithmetic : op.IsArithmetic)
    (defined : op = .div ∨ op = .mod → y.isZero = false) :
    binary op x.value y.value = (x.combine op y).map Number.value := by
  rcases arithmetic with rfl | rfl | rfl | rfl | rfl
  · simp [binary, add, asNumber_value, Number.combine]
  · simp [binary, Value.arithmetic, asNumber_value, Number.combine]
  · simp [binary, Value.arithmetic, asNumber_value, Number.combine]
  · simp [binary, Value.arithmetic, asNumber_value, Number.combine, defined]
  · simp [binary, Value.arithmetic, asNumber_value, Number.combine, defined]

theorem within_eq_error_iff {α : Type} {items : List α} {p : Int} {f : Failure} :
    within items p = .error f ↔ (p < 0 ∨ items.length ≤ p) ∧
      f = if isWritableInt p then .evaluation (.indexOutOfRange p) else .tooLong := by
  have outside : (if p < 0 then none else items[p.toNat]?) = none ↔ p < 0 ∨ items.length ≤ p := by
    split
    case isTrue negative => simp [negative]
    case isFalse position =>
      rw [List.getElem?_eq_none_iff]
      omega
  unfold within
  split
  case h_1 item found => simp [← outside, found]
  case h_2 none =>
    rw [← outside]
    split <;> simp [*, eq_comm]

/-- On a list or a text, what fails is the position or what stands there. -/
theorem index_eq_error_iff {container i : Value} {size : Nat} {f : Failure}
    (sized : container.size? = some size) :
    container.index i = .error f ↔ i.position = .error f ∨
      ∃ p, i.position = .ok p ∧ (p < 0 ∨ size ≤ p) ∧
        f = if isWritableInt p then .evaluation (.indexOutOfRange p) else .tooLong := by
  cases container with
  | list items =>
    cases sized
    rw [index, bind_eq_error_iff]
    simp only [within_eq_error_iff]
  | text s =>
    cases sized
    rw [index, bind_eq_error_iff]
    simp only [bind_eq_error_iff, within_eq_error_iff, pure_eq_ok, reduceCtorEq, and_false,
      exists_false, or_false]
  | _ => cases sized

/-- The whole part of a binary number has at most 309 digits. -/
theorem isWritableInt_of_truncate {x : Binary64} {n : Int} (whole : x.truncate? = some n) :
    isWritableInt n = true := by
  cases x with
  | finite negative significand power canonical =>
    obtain ⟨k, unit, size⟩ := Decimal.one_eq_two_pow
    have magnitude : n.natAbs = significand * 2 ^ power / 2 ^ k := by
      rw [← unit]
      cases whole
      cases negative with
      | false => exact Int.natAbs_natCast _
      | true => exact (Int.natAbs_neg _).trans (Int.natAbs_natCast _)
    have bound : n.natAbs < 2 ^ 1024 := by
      rw [magnitude, Nat.div_lt_iff_lt_mul (Nat.two_pow_pos k), ← pow_add]
      calc significand * 2 ^ power < 2 ^ 53 * 2 ^ power :=
            Nat.mul_lt_mul_of_pos_right canonical.significand_lt (Nat.two_pow_pos power)
        _ = 2 ^ (53 + power) := (pow_add 2 53 power).symm
        _ ≤ 2 ^ (1024 + k) :=
            Nat.pow_le_pow_right (by decide) (by have := canonical.power_le; omega)
    obtain ⟨digits, most⟩ : ∃ d, d = maxDigits := ⟨_, rfl⟩
    have short : 2 ^ 1024 ≤ 10 ^ digits :=
      Decimal.two_pow_le_ten_pow (by rw [most]; decide)
    unfold isWritableInt
    rw [← most]
    exact decide_eq_true (Nat.lt_of_lt_of_le bound short)
  | _ => cases whole

/-- Of the numbers that are positions, only whole ones have more digits than are written. -/
theorem eq_int_of_position {i : Value} {p : Int} (there : i.position = .ok p)
    (long : isWritableInt p = false) : i = .int p := by
  cases i with
  | int n =>
    cases there
    rfl
  | float x =>
    cases x with
    | nan => cases there
    | infinite negative => cases there
    | finite negative significand power canonical =>
      unfold position at there
      dsimp only at there
      split at there
      case h_1 n _ whole =>
        cases there
        rw [isWritableInt_of_truncate whole] at long
        cases long
      case h_2 => cases there
  | _ =>
    obtain ⟨_, _, none⟩ := bind_eq_ok_iff.mp there
    cases none

end Value

namespace Expr.Operation

variable {f : Failure}

theorem stumbles_of_unfit {op : BinaryOp} {x y : Number} (arithmetic : op.IsArithmetic)
    (defined : op = .div ∨ op = .mod → y.isZero = false) (unfit : x.Unfit y) :
    (binary op x.value y.value).Stumbles .overflow := by
  cases x with
  | whole n =>
    cases y with
    | whole _ => cases unfit
    | binary z => exact .large_left arithmetic unfit defined
  | binary z =>
    cases y with
    | whole n => exact .large_right arithmetic unfit
    | binary _ => cases unfit

theorem stumbles_of_remote {x y : Number} (defined : y.isZero = false) (remote : x.Remote y) :
    (binary .div x.value y.value).Stumbles .overflow := by
  cases x with
  | whole a =>
    cases y with
    | whole b => exact .large_quotient (by simpa [Number.isZero] using defined) remote.1 remote.2
    | binary _ => cases remote
  | binary _ => cases remote

theorem stumbles_of_combine {op : BinaryOp} {x y : Number} (arithmetic : op.IsArithmetic)
    (defined : op = .div ∨ op = .mod → y.isZero = false) (failed : x.combine op y = .error f) :
    (binary op x.value y.value).Stumbles f := by
  obtain ⟨rfl, unfit | ⟨rfl, remote⟩⟩ := (Number.combine_eq_error_iff arithmetic defined).mp failed
  · exact stumbles_of_unfit arithmetic defined unfit
  · exact stumbles_of_remote (defined (.inl rfl)) remote

theorem stumbles_of_add {a b : Value} (failed : a.add b = .error f) (foreign : f.IsForeign) :
    (binary .add a b).Stumbles f := by
  unfold Value.add at failed
  split at failed
  case h_1 x y left right =>
    rw [Value.eq_of_asNumber left, Value.eq_of_asNumber right]
    exact stumbles_of_combine (.inl rfl) (by simp) (map_eq_error_iff.mp failed)
  case h_2 =>
    split at failed
    case h_1 s =>
      obtain ⟨rfl, long⟩ := Value.unwritable_of_bind failed (by simp)
      exact .long_behind long
    case h_2 s _ =>
      obtain ⟨rfl, long⟩ := Value.unwritable_of_bind failed (by simp)
      exact .long_before long
    case h_3 => cases failed
    case h_4 => exact (foreign _ (Except.error.inj failed).symm).elim

theorem stumbles_of_arithmetic {op : BinaryOp} {a b : Value}
    (arithmetic : op = .sub ∨ op = .mul ∨ op = .div ∨ op = .mod)
    (failed : Value.binary op a b = .error f) (foreign : f.IsForeign) :
    (binary op a b).Stumbles f := by
  have same : Value.binary op a b = Value.arithmetic op a b := by
    rcases arithmetic with rfl | rfl | rfl | rfl <;> rfl
  have other := same.symm.trans failed
  unfold Value.arithmetic at other
  split at other
  case h_1 x y left right =>
    obtain rfl := Value.eq_of_asNumber left
    obtain rfl := Value.eq_of_asNumber right
    have defined : op = .div ∨ op = .mod → y.isZero = false := by
      intro divides
      refine Bool.eq_false_iff.mpr fun zero => ?_
      rcases divides with rfl | rfl
      all_goals exact foreign _ (Except.error.inj ((if_pos zero).symm.trans other)).symm
    rw [Value.arithmetic_value (.inr arithmetic) defined, map_eq_error_iff] at failed
    exact stumbles_of_combine (.inr arithmetic) defined failed
  case h_2 => exact (foreign _ (Except.error.inj other).symm).elim

theorem stumbles_of_holds {a b : Value} (failed : b.holds a = .error f) (foreign : f.IsForeign) :
    (binary .among a b).Stumbles f := by
  cases b with
  | text s =>
    obtain ⟨rfl, long⟩ := Value.unwritable_of_bind failed (by simp)
    exact .long_item long
  | list _ => cases failed
  | map _ => cases failed
  | _ => exact (foreign _ (Except.error.inj failed).symm).elim

theorem stumbles_of_binary {op : BinaryOp} {a b : Value} (failed : Value.binary op a b = .error f)
    (foreign : f.IsForeign) : (binary op a b).Stumbles f := by
  have comparison (p : Ordering → Bool) (failed : Value.compared a b p = .error f) : False := by
    unfold Value.compared at failed
    split at failed
    · cases failed
    · exact foreign _ (Except.error.inj failed).symm
  cases op with
  | or | and | eq | ne => cases failed
  | lt | le | gt | ge => exact (comparison _ failed).elim
  | among => exact stumbles_of_holds (map_eq_error_iff.mp failed) foreign
  | add => exact stumbles_of_add failed foreign
  | sub | mul | div | mod => exact stumbles_of_arithmetic (by simp) failed foreign

theorem stumbles_of_unary {op : UnaryOp} {v : Value} (failed : v.unary op = .error f)
    (foreign : f.IsForeign) : (unary op v).Stumbles f := by
  cases op with
  | not => cases failed
  | neg =>
    unfold Value.unary at failed
    dsimp only at failed
    split at failed
    case h_1 number => cases failed
    case h_2 other =>
      obtain ⟨rfl, long⟩ := Value.unwritable_of_bind failed
        fun _ known => foreign _ (Except.error.inj known).symm
      exact .long_operand (Value.asNumber_eq_none_iff.mp other) long

theorem stumbles_of_position {container i : Value} {size : Nat}
    (sized : container.size? = some size) (failed : i.position = .error f)
    (foreign : f.IsForeign) : (index container i).Stumbles f := by
  have shown (other : i.kind ≠ .number)
      (failed : i.format >>= (fun s => .error (.evaluation (.indexNotWhole s))) =
        (.error f : Except Failure Int)) : (index container i).Stumbles f := by
    obtain ⟨rfl, long⟩ := Value.unwritable_of_bind failed
      fun _ known => foreign _ (Except.error.inj known).symm
    exact .long_index sized other long
  cases i with
  | int n => cases failed
  | float x =>
    cases x with
    | nan =>
      cases failed
      exact .no_position sized
    | infinite negative =>
      cases failed
      exact .infinite_position sized
    | finite negative significand power canonical =>
      unfold Value.position at failed
      dsimp only at failed
      split at failed
      · cases failed
      · exact (foreign _ (Except.error.inj failed).symm).elim
  | _ => exact shown (by simp [Value.kind]) failed

theorem stumbles_of_index {container i : Value} (failed : container.index i = .error f)
    (foreign : f.IsForeign) : (index container i).Stumbles f := by
  cases sized : container.size? with
  | none =>
    cases container with
    | list _ | text _ => cases sized
    | map entries =>
      cases i with
      | text key => cases failed
      | _ => exact (foreign _ (Except.error.inj failed).symm).elim
    | _ => exact (foreign _ (Except.error.inj failed).symm).elim
  | some size =>
    rcases (Value.index_eq_error_iff sized).mp failed with nowhere | ⟨p, there, outside, same⟩
    · exact stumbles_of_position sized nowhere foreign
    · cases long : isWritableInt p with
      | true => exact (foreign _ (same.trans (if_pos long))).elim
      | false =>
        have beyond := same.trans (if_neg (Bool.eq_false_iff.mp long))
        rw [beyond, Value.eq_int_of_position there long]
        exact .long_position sized outside long

theorem stumbles_of_result {o : Operation} (failed : o.result = .error f)
    (foreign : f.IsForeign) : o.Stumbles f := by
  cases o with
  | unary op operand => exact stumbles_of_unary failed foreign
  | binary op left right => exact stumbles_of_binary failed foreign
  | index container position => exact stumbles_of_index failed foreign
  | member container name =>
    cases container with
    | map entries => cases failed
    | _ => exact (foreign _ (Except.error.inj failed).symm).elim

theorem Stumbles.isForeign {o : Operation} (stumbles : o.Stumbles f) : f.IsForeign := by
  intro error same
  cases stumbles <;> cases same

theorem result_of_combine {op : BinaryOp} {x y : Number} (arithmetic : op.IsArithmetic)
    (defined : op = .div ∨ op = .mod → y.isZero = false)
    (unfit : x.Unfit y ∨ op = .div ∧ x.Remote y) :
    (binary op x.value y.value).result = .error .overflow := by
  refine (Value.arithmetic_value arithmetic defined).trans (map_eq_error_iff.mpr ?_)
  exact (Number.combine_eq_error_iff arithmetic defined).mpr ⟨rfl, unfit⟩

theorem isZero_of_large {n : Int} (large : limit ≤ n.natAbs) : (Number.whole n).isZero = false := by
  have positive : 0 < limit := by unfold limit; positivity
  have nonzero : n ≠ 0 := by omega
  simpa [Number.isZero] using nonzero

theorem result_of_stumbles {o : Operation} (stumbles : o.Stumbles f) : o.result = .error f := by
  cases stumbles with
  | @large_left op n x arithmetic large defined =>
    exact @result_of_combine op (.whole n) (.binary x) arithmetic defined (.inl large)
  | @large_right op x n arithmetic large =>
    exact @result_of_combine op (.binary x) (.whole n) arithmetic
      (fun _ => isZero_of_large large) (.inl large)
  | @large_quotient a b defined broken large =>
    exact @result_of_combine .div (.whole a) (.whole b) (by simp [BinaryOp.IsArithmetic])
      (fun _ => by simpa [Number.isZero] using defined) (.inr ⟨rfl, broken, large⟩)
  | @infinite_position container size negative sized =>
    have nowhere : (Value.float (.infinite negative)).position = .error .overflow := rfl
    exact (Value.index_eq_error_iff sized).mpr (.inl nowhere)
  | no_position sized =>
    have nowhere : (Value.float .nan).position = .error .noPosition := rfl
    exact (Value.index_eq_error_iff sized).mpr (.inl nowhere)
  | @long_position container size n sized outside long =>
    have there : (Value.int n).position = .ok n := rfl
    refine (Value.index_eq_error_iff sized).mpr (.inr ⟨n, there, outside, ?_⟩)
    exact (if_neg (Bool.eq_false_iff.mp long)).symm
  | @long_index container i size sized other long =>
    refine (Value.index_eq_error_iff sized).mpr (.inl ?_)
    have unwritten := Value.format_eq_error_iff.mpr ⟨rfl, long⟩
    cases i with
    | int _ | float _ => exact (other rfl).elim
    | _ => exact bind_eq_error_iff.mpr (.inl unwritten)
  | @long_operand v other long =>
    have unwritten := Value.format_eq_error_iff.mpr ⟨rfl, long⟩
    cases v with
    | int _ | float _ => exact (other rfl).elim
    | _ => exact bind_eq_error_iff.mpr (.inl unwritten)
  | @long_behind s v long =>
    have unwritten := Value.format_eq_error_iff.mpr ⟨rfl, long⟩
    exact bind_eq_error_iff.mpr (.inl unwritten)
  | @long_before v s long =>
    have unwritten := Value.format_eq_error_iff.mpr ⟨rfl, long⟩
    cases v with
    | text _ => cases long
    | _ => exact bind_eq_error_iff.mpr (.inl unwritten)
  | @long_item v s long =>
    have unwritten := Value.format_eq_error_iff.mpr ⟨rfl, long⟩
    exact map_eq_error_iff.mpr (bind_eq_error_iff.mpr (.inl unwritten))

/-- An operation ends in a foreign failure exactly if it is one of those listed. -/
theorem stumbles_iff {o : Operation} :
    o.Stumbles f ↔ o.result = .error f ∧ f.IsForeign :=
  ⟨fun stumbles => ⟨result_of_stumbles stumbles, stumbles.isForeign⟩,
    fun failed => stumbles_of_result failed.1 failed.2⟩

end Expr.Operation
end Parley
