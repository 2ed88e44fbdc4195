import Mathlib.Data.Set.Card
import Parley.Proofs.Body.Inputs

/-!
The options of a set. They are numbered from one on, in whatever order their attributes are written,
and there are as many as numbers without a gap: what is numbered behind the first number that is not
in use is not read.
-/
namespace Parley

namespace Attributes

/-- Whether any part of the option of a number is written. -/
def Offers (a : Attributes) (k : Nat) : Prop :=
  a.has ("value" ++ natText k) ∨ a.has ("option" ++ natText k)

/-- Whether no number up to this one is left out. -/
def Numbered (a : Attributes) (k : Nat) : Prop := ∀ j, 1 ≤ j → j ≤ k → a.Offers j

/-- The option of a number, where both its parts are written and the first is a variable. -/
def choice? (a : Attributes) (k : Nat) : Option Choice := do
  let value ← a.get? ("value" ++ natText k)
  let option ← a.get? ("option" ++ natText k)
  return ⟨← value.value.singleVar?, option.value⟩

variable {a : Attributes}

/-- How the reading of an attribute fails. -/
def Refuses {α : Type} (x : Except ScriptError α) : Prop :=
  ∃ defect position, x = fail defect position

theorem family_of_refuses {α : Type} {x : Except ScriptError α} {e : ScriptError}
    (refuses : Refuses x) (failed : x = .error e) : e.cause.family = .attributes := by
  obtain ⟨defect, position, rfl⟩ := refuses
  cases failed
  rfl

theorem Refuses.bind {α β : Type} {x : Except ScriptError α} (refuses : Refuses x)
    (f : α → Except ScriptError β) : Refuses (x >>= f) := by
  obtain ⟨defect, position, rfl⟩ := refuses
  exact ⟨defect, position, rfl⟩

theorem has_iff {name : String} : a.has name = true ↔ ∃ found, a.get? name = some found :=
  Option.isSome_iff_exists

theorem plain_ok_or_refuses (a : Attributes) (name : String) (required : Bool) :
    (∃ text, a.plain name required = .ok text) ∨ Refuses (a.plain name required) := by
  unfold plain template
  cases a.get? name with
  | none =>
    cases required with
    | true => exact .inr ⟨_, _, rfl⟩
    | false => exact .inl ⟨none, rfl⟩
  | some found =>
    rw [ok_bind]
    dsimp only
    split
    · exact .inl ⟨_, rfl⟩
    · exact .inr ⟨_, _, rfl⟩

/-- No more numbers are in use without a gap than there are attributes. -/
theorem Numbered.le_length {k : Nat} (numbered : a.Numbered k) : k ≤ a.entries.length := by
  -- each number is in use under one name at least, and no name is that of two numbers
  have written : ∀ j, ∃ name, 1 ≤ j → j ≤ k → name ∈ Assoc.keys a.entries ∧
      (name = "value" ++ natText j ∨ name = "option" ++ natText j) := by
    intro j
    by_cases within : 1 ≤ j ∧ j ≤ k
    · rcases numbered j within.1 within.2 with value | option
      · obtain ⟨found, there⟩ := has_iff.mp value
        exact ⟨_, fun _ _ => ⟨List.mem_map_of_mem (Assoc.mem_of_get? there), .inl rfl⟩⟩
      · obtain ⟨found, there⟩ := has_iff.mp option
        exact ⟨_, fun _ _ => ⟨List.mem_map_of_mem (Assoc.mem_of_get? there), .inr rfl⟩⟩
    · exact ⟨"", fun first last => absurd ⟨first, last⟩ within⟩
  choose name written using written
  have inside : ∀ j ∈ List.range' 1 k, 1 ≤ j ∧ j ≤ k := by
    intro j member
    have bounds := List.mem_range'_1.mp member
    omega
  have subset : (List.range' 1 k).map name ⊆ Assoc.keys a.entries := by
    intro w member
    obtain ⟨j, within, rfl⟩ := List.mem_map.mp member
    exact (written j (inside j within).1 (inside j within).2).1
  have distinct : ((List.range' 1 k).map name).Nodup := by
    refine List.Nodup.map_on ?_ List.nodup_range'
    intro i first j second same
    obtain ⟨_, ofFirst⟩ := written i (inside i first).1 (inside i first).2
    obtain ⟨_, ofSecond⟩ := written j (inside j second).1 (inside j second).2
    rw [same] at ofFirst
    rcases ofFirst with value | option <;> rcases ofSecond with value' | option'
    · exact Input.append_natText_injective (value.symm.trans value')
    · exact absurd (value.symm.trans option') (Input.value_ne_option i j)
    · exact absurd (value'.symm.trans option) (Input.value_ne_option j i)
    · exact Input.append_natText_injective (option.symm.trans option')
  simpa [Assoc.keys] using distinct.length_le_of_subset subset

theorem numbered_zero (a : Attributes) : a.Numbered 0 := by
  intro j first last
  omega

/-- The numbers in use without a gap end somewhere. -/
theorem exists_numbered_iff (a : Attributes) :
    ∃ n, ¬a.Offers (n + 1) ∧ ∀ k, a.Numbered k ↔ k ≤ n := by
  classical
  have ends : ∃ k, ¬a.Numbered k :=
    ⟨a.entries.length + 1, fun numbered => absurd numbered.le_length (by omega)⟩
  obtain ⟨n, last⟩ : ∃ n, Nat.find ends = n + 1 := by
    refine Nat.exists_eq_succ_of_ne_zero fun zero => ?_
    exact (zero ▸ Nat.find_spec ends) (numbered_zero a)
  have numbered : a.Numbered n := by
    by_contra gap
    exact Nat.find_min ends (last ▸ Nat.lt_succ_self n) gap
  have past : ¬a.Numbered (n + 1) := last ▸ Nat.find_spec ends
  refine ⟨n, fun offers => past fun j first inside => ?_, fun k => ?_⟩
  · rcases Nat.lt_or_eq_of_le inside with before | rfl
    · exact numbered j first (by omega)
    · exact offers
  · constructor
    · intro more
      by_contra beyond
      exact past fun j first inside => more j first (by omega)
    · intro within j first inside
      exact numbered j first (by omega)

end Attributes

namespace Input

open Attributes

variable {a : Attributes}

theorem choicesOf_of_not_offers {k fuel : Nat} (none : ¬a.Offers k) :
    choicesOf a k fuel = .ok [] := by
  obtain ⟨value, option⟩ := not_or.mp none
  cases fuel with
  | zero => rfl
  | succ fuel => simp [choicesOf, value, option]

theorem choicesOf_of_choice? {k fuel : Nat} {c : Choice} (given : a.choice? k = some c) :
    choicesOf a k (fuel + 1) = (c :: ·) <$> choicesOf a (k + 1) fuel := by
  simp only [choice?, bind, Option.bind_eq_some_iff, pure, Option.some.injEq] at given
  obtain ⟨value, hasValue, option, hasOption, target, single, rfl⟩ := given
  simp [choicesOf, has_iff.mpr ⟨_, hasValue⟩, has_iff.mpr ⟨_, hasOption⟩, targetOf, varName,
    template, hasValue, hasOption, single]
  rfl

/-- A number that is in use in part, or for no variable, is refused. -/
theorem refuses_choicesOf {k fuel : Nat} (offers : a.Offers k) (incomplete : a.choice? k = none) :
    Refuses (choicesOf a k (fuel + 1)) := by
  rw [choicesOf]
  cases value : a.get? ("value" ++ natText k) with
  | none =>
    have hasNo : a.has ("value" ++ natText k) = false := congrArg Option.isSome value
    have hasOption : a.has ("option" ++ natText k) := offers.resolve_left (by simp [hasNo])
    simp only [hasNo, hasOption]
    exact ⟨_, _, rfl⟩
  | some found =>
    have hasValue : a.has ("value" ++ natText k) := has_iff.mpr ⟨found, value⟩
    cases option : a.get? ("option" ++ natText k) with
    | none =>
      have hasNo : a.has ("option" ++ natText k) = false := congrArg Option.isSome option
      simp only [hasValue, hasNo]
      exact ⟨_, _, rfl⟩
    | some label =>
      have hasOption : a.has ("option" ++ natText k) := has_iff.mpr ⟨label, option⟩
      have constant : found.value.singleVar? = none := by
        cases single : found.value.singleVar? with
        | none => rfl
        | some target => simp [choice?, value, option, single] at incomplete
      have target : Refuses (targetOf a ("value" ++ natText k)) := by
        rw [targetOf, varName, template, value, ok_bind]
        simp only [constant]
        exact ⟨_, _, rfl⟩
      simp only [hasValue, hasOption]
      exact target.bind _

/-- From a number on, with so many numbers in use without a gap behind it, as many options are read,
unless one of them cannot be read. -/
theorem choicesOf_eq {m k fuel : Nat} (offers : ∀ j, k ≤ j → j < k + m → a.Offers j)
    (last : ¬a.Offers (k + m)) (enough : m ≤ fuel) :
    (∃ options, choicesOf a k fuel = .ok options ∧
      options.map some = (List.range' k m).map a.choice?) ∨
    (none ∈ (List.range' k m).map a.choice? ∧ Refuses (choicesOf a k fuel)) := by
  induction m generalizing k fuel with
  | zero => exact .inl ⟨[], choicesOf_of_not_offers last, rfl⟩
  | succ m ih =>
    obtain ⟨fuel, rfl⟩ : ∃ less, fuel = less + 1 := ⟨fuel - 1, by omega⟩
    rw [List.range'_succ, List.map_cons]
    cases here : a.choice? k with
    | none =>
      have offered := offers k (Nat.le_refl k) (by omega)
      exact .inr ⟨List.mem_cons_self, refuses_choicesOf offered here⟩
    | some c =>
      rw [choicesOf_of_choice? here]
      have later : ¬a.Offers (k + 1 + m) := by
        rwa [Nat.add_assoc, Nat.add_comm 1 m]
      rcases @ih (k + 1) fuel (fun j first inside => offers j (by omega) (by omega)) later
        (by omega) with ⟨options, read, all⟩ | ⟨missing, refuses⟩
      · rw [read]
        exact .inl ⟨c :: options, rfl, by rw [List.map_cons, all]⟩
      · obtain ⟨defect, position, failed⟩ := refuses
        rw [failed]
        exact .inr ⟨List.mem_cons_of_mem _ missing, defect, position, rfl⟩

theorem choicesOf_eq_ok_iff {m k fuel : Nat} (offers : ∀ j, k ≤ j → j < k + m → a.Offers j)
    (last : ¬a.Offers (k + m)) (enough : m ≤ fuel) {options : List Choice} :
    choicesOf a k fuel = .ok options ↔ options.map some = (List.range' k m).map a.choice? := by
  rcases choicesOf_eq offers last enough with ⟨chosen, read, all⟩ | ⟨missing, _, _, refused⟩
  · rw [read, ← all, List.map_inj_right fun _ _ => Option.some.inj, Except.ok.injEq]
    exact eq_comm
  · rw [refused]
    constructor
    · intro read
      cases read
    · intro all
      rw [← all] at missing
      obtain ⟨_, _, absurd⟩ := List.mem_map.mp missing
      cases absurd

/-- What is read of a set command: its description and its options. -/
theorem ofAttributes_set (type : a.plain "type" true = .ok (some "set")) :
    ofAttributes a = do
      let description ← a.plain "description" false
      let options ← choicesOf a 1 (a.entries.length + 1)
      return ⟨description.filter (!·.isEmpty), .choices options⟩ := by
  rw [ofAttributes, type]
  cases a.plain "description" false with
  | error e => rfl
  | ok description =>
    cases read : choicesOf a 1 (a.entries.length + 1) <;> simp [fieldOf, read, types]

/-- A set has an option for each number from one on up to the first that is not in use, in the order
of the numbers. It is read if each of these options has its variable and its label, and otherwise
refused for its attributes. What else is numbered changes nothing. -/
theorem options_of_set (type : a.plain "type" true = .ok (some "set")) :
    ∃ n, (∀ k, a.Numbered k ↔ k ≤ n) ∧
      (∀ i, ofAttributes a = .ok i ↔ ∃ description options,
        a.plain "description" false = .ok description ∧
          i = ⟨description.filter (!·.isEmpty), .choices options⟩ ∧
            options.map some = (List.range' 1 n).map a.choice?) ∧
      ∀ e, ofAttributes a = .error e → e.cause.family = .attributes := by
  obtain ⟨n, last, all⟩ := a.exists_numbered_iff
  have numbered : a.Numbered n := (all n).mpr (Nat.le_refl n)
  have enough : n ≤ a.entries.length + 1 := Nat.le_succ_of_le numbered.le_length
  have offers : ∀ j, 1 ≤ j → j < 1 + n → a.Offers j := fun j first inside =>
    numbered j first (by omega)
  have last : ¬a.Offers (1 + n) := Nat.add_comm n 1 ▸ last
  refine ⟨n, all, fun i => ?_, fun e failed => ?_⟩
  · rw [ofAttributes_set type, bind_eq_ok_iff]
    constructor
    · rintro ⟨description, read, rest⟩
      obtain ⟨options, chosen, made⟩ := bind_eq_ok_iff.mp rest
      cases made
      exact ⟨description, options, read, rfl, (choicesOf_eq_ok_iff offers last enough).mp chosen⟩
    · rintro ⟨description, options, read, rfl, each⟩
      refine ⟨description, read, ?_⟩
      rw [(choicesOf_eq_ok_iff offers last enough).mpr each]
      rfl
  · rw [ofAttributes_set type, bind_eq_error_iff] at failed
    rcases failed with failed | ⟨description, _, failed⟩
    · rcases a.plain_ok_or_refuses "description" false with ⟨_, read⟩ | refuses
      · cases read.symm.trans failed
      · exact family_of_refuses refuses failed
    · rcases choicesOf_eq offers last enough with ⟨options, chosen, _⟩ | ⟨_, refuses⟩
      · rw [chosen] at failed
        cases failed
      · exact family_of_refuses (refuses.bind _) failed

/-- Options that are written in any order, and one behind a gap. -/
theorem options_of_set_with_gap :
    let entry (value : Template) : Attribute := ⟨value, "", .start⟩
    let a : Attributes := ⟨.start, [("option2", entry (.ofText "Tea")),
      ("type", entry (.ofText "set")), ("value4", entry (.single "d")),
      ("value1", entry (.single "a")), ("option1", entry (.ofText "Milk")),
      ("value2", entry (.single "b"))]⟩
    a.plain "type" true = .ok (some "set") ∧ (∀ k, a.Numbered k ↔ k ≤ 2) ∧
      ofAttributes a = .ok ⟨none, .choices [⟨"a", .ofText "Milk"⟩, ⟨"b", .ofText "Tea"⟩]⟩ := by
  intro entry a
  have type : a.plain "type" true = .ok (some "set") := toOption_eq_some_iff.mp (by decide +kernel)
  have none_else : a.plain "description" false = .ok none :=
    toOption_eq_some_iff.mp (by decide +kernel)
  have used : ∀ j ∈ List.range' 1 2, a.has ("value" ++ natText j) := by decide +kernel
  have gap : a.has ("value" ++ natText 3) = false ∧ a.has ("option" ++ natText 3) = false := by
    decide +kernel
  have each : [(⟨"a", .ofText "Milk"⟩ : Choice), ⟨"b", .ofText "Tea"⟩].map some =
      (List.range' 1 2).map a.choice? := by decide +kernel
  obtain ⟨n, all, read, _⟩ := options_of_set type
  clear_value a
  have least : 2 ≤ n := (all 2).mp fun j first last =>
    .inl (used j (List.mem_range'_1.mpr (by omega)))
  have most : ¬3 ≤ n := by
    intro more
    rcases (all 3).mpr more 3 (by omega) (by omega) with value | option
    · exact absurd (gap.1.symm.trans value) Bool.false_ne_true
    · exact absurd (gap.2.symm.trans option) Bool.false_ne_true
  obtain rfl : n = 2 := by omega
  exact ⟨type, all, (read _).mpr ⟨none, _, none_else, rfl, each⟩⟩

/-- The third option of a command without a second one is dropped. -/
theorem option_behind_gap_is_dropped :
    ∃ a i options, Attributes.ofText
        "<<input type=\"set\" value1=\"$a\" option1=\"A\" value3=\"$c\" option3=\"C\">>" =
          .ok ("input", a, []) ∧
      a.plain "type" true = .ok (some "set") ∧ ofAttributes a = .ok i ∧
        i.field = .choices options ∧ options.length ≠ {k | 1 ≤ k ∧ a.Offers k}.ncard := by
  have outcome : Option.map
      (fun (name, a, behind) => (name, (a.plain "type" true).toOption,
        (ofAttributes a).toOption, a.has "value1" && a.has "value3" && behind.isEmpty))
      (Attributes.ofText
        "<<input type=\"set\" value1=\"$a\" option1=\"A\" value3=\"$c\" option3=\"C\">>").toOption =
      some ("input", some (some "set"), some ⟨none, .choices [⟨"a", .ofText "A"⟩]⟩, true) := by
    decide +kernel
  simp only [Option.map_eq_some_iff, toOption_eq_some_iff, Prod.exists, Prod.mk.injEq,
    Bool.and_eq_true, List.isEmpty_iff] at outcome
  obtain ⟨name, a, behind, read, rfl, type, input, ⟨first, third⟩, rfl⟩ := outcome
  refine ⟨a, _, [⟨"a", .ofText "A"⟩], read, type, input, rfl, fun same => ?_⟩
  obtain ⟨k, only⟩ := Set.ncard_eq_one.mp same.symm
  have one : 1 ∈ {k | 1 ≤ k ∧ a.Offers k} := ⟨by omega, .inl first⟩
  have three : 3 ∈ {k | 1 ≤ k ∧ a.Offers k} := ⟨by omega, .inl third⟩
  rw [only] at one three
  cases one.trans three.symm

end Input

end Parley
