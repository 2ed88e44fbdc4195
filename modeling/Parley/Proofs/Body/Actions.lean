import Parley.Proofs.Body.Values

/-!
Actions and weights as attributes: what is written of each, and that the same is read from it.
-/
namespace Parley

open Tokenizer

theorem quotable_plain {s : String} (marks : ∀ c ∈ s.toList, isNameChar c) :
    (Template.ofText s).Quotable :=
  Template.quotable_ofText fun c member => isLineBreak_of_isNameChar (marks c member)

theorem escapeText_name {s : String} (marks : ∀ c ∈ s.toList, isNameChar c) :
    escapeText .quoted s = s := by
  refine escapeText_of_plain fun c member => ?_
  have inner := isInner_of_isNameChar (marks c member)
  simp only [isInner, Bool.and_eq_true, bne_iff_ne] at inner
  simp [Quotation.escapes, inner]

/-! Actions -/

namespace Action

def attributes (a : Action) : List (String × Template) :=
  ("type", .ofText a.type.name) :: ("value", a.value) :: a.parameters

def templates (a : Action) : List Template := a.value :: a.parameters.map (·.2)

/-- Whether the names in an action can be those of attributes. -/
structure Fits (a : Action) : Prop where
  named : ∀ p ∈ a.parameters, isName p.1.toList
  single : (a.parameters.map (·.1)).Nodup
  fresh : ∀ p ∈ a.parameters, p.1 ≠ "type" ∧ p.1 ≠ "value"

/-- Whether an action is read again from what is written of it. -/
structure Sound (a : Action) : Prop where
  fits : a.Fits
  quotable : ∀ t ∈ a.templates, t.Quotable

variable {a : Action}

theorem name_typeName (type : ActionType) : ∀ c ∈ type.name.toList, isNameChar c := by
  cases type <;> decide

theorem toScript_eq (a : Action) :
    a.toScript = "<<action" ++ String.join (a.attributes.map parameterText) ++ ">>" := by
  simp [toScript, attributes, parameterText, Template.toScript_ofText,
    escapeText_name (name_typeName a.type), String.append_assoc]

theorem Sound.attributes (sound : a.Sound) : Attributes.Sound a.attributes := by
  obtain ⟨⟨named, single, fresh⟩, quotable⟩ := sound
  refine ⟨fun p member => ?_, fun p member => ?_, ?_⟩
  · have first : isName "type".toList := by decide
    have second : isName "value".toList := by decide
    rcases List.mem_cons.mp member with rfl | member
    · exact first
    rcases List.mem_cons.mp member with rfl | member
    · exact second
    · exact named p member
  · rcases List.mem_cons.mp member with rfl | member
    · exact quotable_plain (name_typeName a.type)
    rcases List.mem_cons.mp member with rfl | member
    · exact quotable a.value List.mem_cons_self
    · exact quotable p.2 (List.mem_cons_of_mem _ (List.mem_map_of_mem member))
  · refine List.nodup_cons.mpr ⟨fun member => ?_, List.nodup_cons.mpr ⟨fun member => ?_, single⟩⟩
    · rcases List.mem_cons.mp member with same | member
      · simp at same
      · obtain ⟨p, inside, same⟩ := List.mem_map.mp member
        exact (fresh p inside).1 same
    · obtain ⟨p, inside, same⟩ := List.mem_map.mp member
      exact (fresh p inside).2 same

theorem ofAttributes_of_lists {found : Attributes} (sound : a.Sound)
    (listed : Attributes.Lists found.entries a.attributes) : ofAttributes found = .ok a := by
  have type : found.plain "type" true = .ok (some a.type.name) :=
    Attributes.plain_of_lists listed rfl fun _ => rfl
  have value : found.template "value" true = .ok (Assoc.get? "value" a.attributes) :=
    Attributes.template_of_lists listed fun _ => rfl
  have known : actionTypes.find? (·.name == a.type.name) = some a.type := by
    cases a.type <;> decide
  have others : (found.entries.filter fun x => x.1 != "type" && x.1 != "value").map
      (fun x => (x.1, x.2.value)) = a.parameters := by
    have kept : a.parameters.filter (fun p => p.1 != "type" && p.1 != "value") = a.parameters :=
      List.filter_eq_self.mpr fun p member => by simp [sound.fits.fresh p member]
    have all : a.attributes.filter (fun p => p.1 != "type" && p.1 != "value") = a.parameters := by
      rw [Action.attributes, List.filter_cons_of_neg (by simp), List.filter_cons_of_neg (by simp),
        kept]
    rw [← all, ← listed, List.filter_map]
    rfl
  unfold ofAttributes
  rw [type]
  simp only [ok_bind, Option.getD_some, known, value]
  rw [others]
  simp [Action.attributes, Assoc.get?]

end Action

/-! Weights -/

/-- Whether a number can be read as a weight. -/
def Weighs : Number → Prop
  | .whole _ => False
  | .binary x => x.isFinite ∧ (x.isNegative = false ∨ x.isZero)

/-- A weight as it is read from its text, which has no negative zero. -/
def settledWeight : Number → Number
  | .whole n => .whole n
  | .binary x => .binary (if x.isZero then .zero false else x)

theorem weightText_finite {negative : Bool} {significand power : Nat}
    (h : Binary64.Canonical significand power) :
    weightText (.binary (.finite negative significand power h)) =
      if Binary64.units significand power % Binary64.one = 0 then
        let whole : Int := (Binary64.units significand power / Binary64.one : Nat)
        intText (if negative then -whole else whole)
      else (Binary64.finite negative significand power h).text := by
  by_cases whole : Binary64.units significand power % Binary64.one = 0
  · simp only [weightText, Binary64.isWhole, Binary64.truncate?, whole, beq_self_eq_true, if_true]
  · have part : (Binary64.units significand power % Binary64.one == 0) = false := by
      simpa only [beq_eq_false_iff_ne] using whole
    simp only [weightText, Binary64.isWhole, part, if_neg whole]

theorem compare_self {negative : Bool} {significand power : Nat}
    (h : Binary64.Canonical significand power) :
    Value.same (.float (.finite negative significand power h))
      (.float (.finite negative significand power h)) := by
  simp [Value.same, Binary64.compare?]

/-- A weight is settled as a number without a sign, which is the same and written the same. -/
theorem exists_settled {w : Number} (weighs : Weighs w) : ∃ significand power h,
    settledWeight w = .binary (.finite false significand power h) ∧
      weightText (settledWeight w) = weightText w ∧ isUnit (settledWeight w) = isUnit w ∧
        Value.same w.value (settledWeight w).value := by
  cases w with
  | whole n => cases weighs
  | binary x =>
    obtain ⟨finite, positive⟩ := weighs
    cases x with
    | nan => cases finite
    | infinite negative => cases finite
    | finite negative significand power h =>
      by_cases zero : significand = 0
      · subst zero
        obtain rfl : power = 0 := h.normal.resolve_left (by decide)
        have none : Binary64.units 0 0 % Binary64.one = 0 := by decide +kernel
        have nothing : Binary64.units 0 0 / Binary64.one = 0 := by decide +kernel
        refine ⟨0, 0, h, rfl, ?_, ?_, ?_⟩
        · have settled : settledWeight (.binary (.finite negative 0 0 h)) =
              .binary (.finite false 0 0 h) := rfl
          rw [settled, weightText_finite, weightText_finite, if_pos none, if_pos none, nothing]
          cases negative <;> rfl
        · change isUnit (settledWeight (.binary (.zero negative))) =
            isUnit (.binary (.zero negative))
          cases negative <;> decide +kernel
        · change Value.same (.float (.zero negative))
            (settledWeight (.binary (.zero negative))).value
          cases negative <;> decide +kernel
      · have unsigned : negative = false := by
          rcases positive with same | isZero
          · exact same
          · exact absurd (beq_iff_eq.mp isZero) zero
        subst unsigned
        have settled : settledWeight (.binary (.finite false significand power h)) =
            .binary (.finite false significand power h) := by
          simp [settledWeight, Binary64.isZero, zero]
        exact ⟨significand, power, h, settled, by rw [settled], by rw [settled],
          by rw [settled]; exact compare_self h⟩

def weightSlots (w : Number) : List (String × Option Template) :=
  [("weight", if isUnit w then none else some (.ofText (weightText w)))]

theorem marks_weightText {w : Number} (weighs : Weighs w) :
    ∀ c ∈ (weightText w).toList, Numeral.IsMark c := by
  obtain ⟨significand, power, h, settled, text, _, _⟩ := exists_settled weighs
  rw [← text, settled, weightText_finite]
  intro c member
  split at member
  · rw [intText, String.toList_ofList] at member
    exact Numeral.intChars_marks _ c member
  · obtain ⟨l, _, chars, _⟩ := Binary64.exists_layout h
    rw [Binary64.text, String.toList_ofList, chars] at member
    exact Numeral.Layout.mem_chars member

/-- Only the number one has the order of one. -/
theorem eq_one_of_isUnit {significand power : Nat} {h : Binary64.Canonical significand power}
    (unit : isUnit (.binary (.finite false significand power h))) :
    Binary64.finite false significand power h = Binary64.ofInt 1 := by
  have one : Binary64.ofInt 1 = .finite false (Nat.pow 2 52) 1022
      ⟨by decide +kernel, by decide +kernel, .inl (Nat.le_refl _)⟩ := by decide +kernel
  have value : Binary64.units (Nat.pow 2 52) 1022 = Binary64.one := by decide +kernel
  rw [isUnit, one, Binary64.compare?] at unit
  simp only [Bool.false_eq_true, if_false, beq_iff_eq, Option.some.injEq, compare_eq_iff_eq,
    Int.natCast_inj] at unit
  rw [← Binary64.ofUnits_exact false h, unit, value, Binary64.ofInt, Binary64.ofRatio]
  simp

theorem order_zero {significand power : Nat} (h : Binary64.Canonical significand power) :
    (Number.binary (.finite false significand power h)).value.order?
      (Number.binary (.zero false)).value ≠ some .lt := by
  simp [Number.value, Value.order?, Binary64.zero, Binary64.compare?, compare_lt_iff_lt,
    Binary64.units]

theorem float_weightText {significand power : Nat} (h : Binary64.Canonical significand power) :
    Numeral.float? (weightText (.binary (.finite false significand power h))) =
      some (.finite false significand power h) := by
  rw [weightText_finite]
  split
  · rename_i whole
    have value : Binary64.units significand power =
        Binary64.units significand power / Binary64.one * Binary64.one :=
      (Nat.div_mul_cancel (Nat.dvd_of_mod_eq_zero whole)).symm
    have text (n : Nat) : intText (n : Int) = natText n := by
      rw [intText, intChars, if_neg (by omega), Int.natAbs_natCast, natText]
    exact (congrArg Numeral.float? (text _)).trans (Numeral.float_whole h value)
  · exact Numeral.float_text rfl rfl

/-- The weight that is read from attributes in which it is written, or left out as one. -/
theorem weightOf_of_lists {w : Number} {found : Attributes} (weighs : Weighs w)
    (listed : Attributes.Lists found.entries (present (weightSlots w))) :
    weightOf found = .ok (settledWeight w) := by
  obtain ⟨significand, power, h, settled, text, same, _⟩ := exists_settled weighs
  have slots : Assoc.get? "weight" (present (weightSlots w)) =
      (if isUnit w then none else some (weightText w)).map Template.ofText := by
    rw [get?_present (by simp [weightSlots])]
    unfold weightSlots
    split <;> rfl
  have read : found.plain "weight" false = .ok (if isUnit w then none else some (weightText w)) :=
    Attributes.plain_of_lists listed slots (by simp)
  unfold weightOf Attributes.number
  rw [read, settled]
  by_cases unit : isUnit w
  · rw [if_pos unit]
    rw [← same, settled] at unit
    rw [eq_one_of_isUnit unit]
    simp
  · have fits := order_zero h
    have numeral := float_weightText h
    rw [← settled, text] at numeral
    simp only [if_neg unit, ok_bind, numeral]
    simp [Binary64.isFinite, Attributes.checkBounds, fits]

theorem escapeText_marks {s : String} (marks : ∀ c ∈ s.toList, Numeral.IsMark c) :
    escapeText .quoted s = s := by
  refine escapeText_of_plain fun c member => ?_
  rcases marks c member with digit | rfl | rfl | rfl | rfl
  · have range := Numeral.isPlainDigit_iff.mp digit
    simp only [Quotation.escapes, Bool.or_eq_false_iff, beq_eq_false_iff_ne]
    refine ⟨⟨?_, ?_⟩, ?_⟩ <;>
      · rintro rfl
        cases digit
  all_goals decide

theorem quotable_marks {s : String} (marks : ∀ c ∈ s.toList, Numeral.IsMark c) :
    (Template.ofText s).Quotable := by
  refine Template.quotable_ofText fun c member => ?_
  rcases marks c member with digit | rfl | rfl | rfl | rfl
  · have range := Numeral.isPlainDigit_iff.mp digit
    exact isLineBreak_of_printed (by omega) (by omega)
  all_goals decide

theorem weightAttribute_eq {w : Number} (weighs : Weighs w) :
    weightAttribute w = String.join ((present (weightSlots w)).map parameterText) := by
  have plain := escapeText_marks (marks_weightText weighs)
  unfold weightAttribute weightSlots
  split
  · rfl
  · simp [present, parameterText, Template.toScript_ofText, plain]

theorem sound_weight {w : Number} (weighs : Weighs w) :
    Attributes.Sound (present (weightSlots w)) := by
  have named : isName "weight".toList := by decide
  refine sound_present (fun p member => ?_) (by simp [weightSlots]) fun name t member => ?_
  · rw [List.mem_singleton.mp member]
    exact named
  · simp only [weightSlots, List.mem_singleton, Prod.mk.injEq] at member
    obtain ⟨_, filled⟩ := member
    split at filled
    · cases filled
    · cases filled
      exact quotable_marks (marks_weightText weighs)

end Parley
