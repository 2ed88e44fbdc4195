import Parley.Proofs.Body.Actions

/-!
Inputs as attributes: what is written of each kind of input, and that the same is read from it.
-/
namespace Parley

open Tokenizer

def boundSlots (bounds : Bounds) : List (String × Option Template) :=
  [("min", bounds.least.map fun n => .ofText (intText n)),
    ("max", bounds.most.map fun n => .ofText (intText n))]

def ruleSlots (rules : TextRules) : List (String × Option Template) :=
  rules.entries.map fun (name, value, standard) =>
    (name, if value = standard then none else some (.ofText (if value then "true" else "false")))

/-- The options of a set, numbered from `number` on. -/
def choiceSlots (number : Nat) : List Choice → List (String × Option Template)
  | [] => []
  | o :: rest =>
      ("value" ++ natText number, some (.single o.variableName)) ::
        ("option" ++ natText number, some o.label) :: choiceSlots (number + 1) rest

namespace Field

def slots : Field → List (String × Option Template)
  | email target => [("value", some (.single target))]
  | text target bounds rules | longText target bounds rules =>
      ("value", some (.single target)) :: (boundSlots bounds ++ ruleSlots rules)
  | numeric target bounds => ("value", some (.single target)) :: boundSlots bounds
  | choices options => choiceSlots 1 options
  | time target granularity times =>
      ("value", some (.single target)) ::
        ("granularityMinutes", some (.ofText (intText granularity))) :: times.entries

end Field

namespace Bounds

/-- Whether bounds are read again from what is written of them. -/
def Sound (b : Bounds) : Prop :=
  (∀ n ∈ b.least, Attributes.Short n) ∧ ∀ n ∈ b.most, Attributes.Short n

end Bounds

/-- Whether a time is read again as it is: it has variables or is in its standard form. -/
def IsTime (t : Template) : Prop :=
  t.isPlain = false ∨ ∃ s, t = .ofText s ∧ LocalTime.normalize? s = some s

namespace Field

def templates : Field → List Template
  | choices options => options.map (·.label)
  | time _ _ times => times.templates
  | _ => []

/-- Whether what is written of a field beside its templates is read again. -/
def Fits : Field → Prop
  | email target => isName target.toList
  | text target bounds _ | longText target bounds _ | numeric target bounds =>
      isName target.toList ∧ bounds.Sound
  | choices options => ∀ o ∈ options, isName o.variableName.toList
  | time target granularity times =>
      isName target.toList ∧ 1 ≤ granularity ∧ Attributes.Short granularity ∧
        ∀ t ∈ times.templates, IsTime t

end Field

namespace Input

def slots (i : Input) : List (String × Option Template) :=
  ("type", some (.ofText i.field.typeName)) :: ("description", i.description.map .ofText) ::
    i.field.slots

def templates (i : Input) : List Template := i.field.templates

/-- Whether what is written of an input beside its templates is read again. -/
structure Fits (i : Input) : Prop where
  description : ∀ d ∈ i.description, d ≠ "" ∧ ∀ c ∈ d.toList, isLineBreak c = false
  field : i.field.Fits

/-- Whether an input is read again from what is written of it. -/
structure Sound (i : Input) : Prop where
  fits : i.Fits
  quotable : ∀ t ∈ i.templates, t.Quotable

theorem mem_natText {n : Nat} {c : Char} (member : c ∈ (natText n).toList) :
    Numeral.isPlainDigit c := by
  rw [natText, String.toList_ofList] at member
  exact natChars_plain n c member

theorem natText_injective {m n : Nat} (same : natText m = natText n) : m = n := by
  have chars : natChars m = natChars n := String.ofList_injective same
  have digits := congrArg (fun cs => digitsValue (Numeral.digitsOf cs)) chars
  simpa [digitsValue_natChars] using digits

/-- The names of options are numbered from the first on. -/
theorem name_of_choiceSlots {number : Nat} {options : List Choice} {p : String × Option Template}
    (member : p ∈ choiceSlots number options) : ∃ k, number ≤ k ∧
      (p.1 = "value" ++ natText k ∨ p.1 = "option" ++ natText k) := by
  induction options generalizing number with
  | nil => cases member
  | cons o rest ih =>
    rw [choiceSlots, List.mem_cons, List.mem_cons] at member
    rcases member with rfl | rfl | later
    · exact ⟨number, Nat.le_refl _, .inl rfl⟩
    · exact ⟨number, Nat.le_refl _, .inr rfl⟩
    · obtain ⟨k, le, same⟩ := ih later
      exact ⟨k, by omega, same⟩

theorem value_ne_option (m n : Nat) : "value" ++ natText m ≠ "option" ++ natText n := by
  intro same
  have chars := congrArg String.toList same
  simp at chars

theorem append_natText_injective {front : String} {m n : Nat}
    (same : front ++ natText m = front ++ natText n) : m = n := by
  have chars := congrArg String.toList same
  rw [String.toList_append, String.toList_append] at chars
  exact natText_injective (String.toList_inj.mp (List.append_cancel_left chars))

theorem nodup_choiceSlots (number : Nat) (options : List Choice) :
    ((choiceSlots number options).map (·.1)).Nodup := by
  induction options generalizing number with
  | nil => exact .nil
  | cons o rest ih =>
    have later := ih (number + 1)
    rw [choiceSlots, List.map_cons, List.map_cons, List.nodup_cons, List.nodup_cons]
    refine ⟨fun member => ?_, fun member => ?_, later⟩
    · rcases List.mem_cons.mp member with same | member
      · exact value_ne_option _ _ same
      · obtain ⟨p, inside, same⟩ := List.mem_map.mp member
        obtain ⟨k, le, value | option⟩ := name_of_choiceSlots inside
        · have equal := append_natText_injective (value.symm.trans same)
          omega
        · exact value_ne_option _ _ (same.symm.trans option)
    · obtain ⟨p, inside, same⟩ := List.mem_map.mp member
      obtain ⟨k, le, value | option⟩ := name_of_choiceSlots inside
      · exact value_ne_option _ _ (value.symm.trans same)
      · have equal := append_natText_injective (option.symm.trans same)
        omega

theorem isName_append_natText {front : String} (named : isName front.toList) (n : Nat) :
    isName (front ++ natText n).toList := by
  obtain ⟨c, more, chars, start, all⟩ := isName_iff.mp named
  refine isName_iff.mpr ⟨c, more ++ (natText n).toList, ?_, start, fun d member => ?_⟩
  · rw [String.toList_append, chars, List.cons_append]
  · rw [String.toList_append] at member
    rcases List.mem_append.mp member with here | digit
    · exact all d here
    · exact isNameChar_iff.mpr (.inr (mem_natText digit))

theorem get?_choiceSlots {number i : Nat} {options : List Choice} :
    Assoc.get? ("value" ++ natText (number + i)) (choiceSlots number options) =
        options[i]?.map (fun o => some (.single o.variableName)) ∧
      Assoc.get? ("option" ++ natText (number + i)) (choiceSlots number options) =
        options[i]?.map (fun o => some o.label) := by
  induction options generalizing number i with
  | nil => exact ⟨rfl, rfl⟩
  | cons o rest ih =>
    have other := value_ne_option
    cases i with
    | zero => simp [choiceSlots, Assoc.get?, other]
    | succ i =>
      have distinct (front : String) : front ++ natText number ≠
          front ++ natText (number + (i + 1)) := by
        intro same
        have equal := append_natText_injective same
        omega
      have later := @ih (number + 1) i
      rw [show number + 1 + i = number + (i + 1) by omega] at later
      simp [choiceSlots, Assoc.get?, other, (other _ _).symm, distinct, later]

/-- The names of all slots but those of options. -/
def slotNames : List String :=
  ["type", "description", "value", "min", "max", "granularityMinutes", "startTime", "minTime",
    "maxTime"] ++ TextRules.standard.entries.map (·.1)

theorem named_slots (i : Input) : ∀ p ∈ i.slots, isName p.1.toList := by
  have fixed : ∀ name ∈ slotNames, isName name.toList := by decide
  obtain ⟨description, field⟩ := i
  intro p member
  cases field with
  | choices options =>
    rw [slots, List.mem_cons, List.mem_cons] at member
    rcases member with rfl | rfl | option
    · exact fixed _ (by simp [slotNames])
    · exact fixed _ (by simp [slotNames])
    · obtain ⟨k, _, same | same⟩ := name_of_choiceSlots option
      · rw [same]
        exact isName_append_natText (by decide) k
      · rw [same]
        exact isName_append_natText (by decide) k
  | _ =>
    have within {names : List String} (subset : names ⊆ slotNames) (key : p.1 ∈ names) :
        isName p.1.toList := fixed p.1 (subset key)
    refine within ?_ (List.mem_map_of_mem (f := Prod.fst) member)
    simp [slots, Field.slots, boundSlots, ruleSlots, TextRules.entries, ClockTimes.entries,
      slotNames]

theorem nodup_slots (i : Input) : (i.slots.map (·.1)).Nodup := by
  obtain ⟨description, field⟩ := i
  cases field with
  | choices options =>
    have other (name : String) (first : ∀ k, name ≠ "value" ++ natText k)
        (second : ∀ k, name ≠ "option" ++ natText k) :
        name ∉ (choiceSlots 1 options).map (·.1) := by
      intro member
      obtain ⟨p, inside, same⟩ := List.mem_map.mp member
      obtain ⟨k, _, value | option⟩ := name_of_choiceSlots inside
      · exact first k (same.symm.trans value)
      · exact second k (same.symm.trans option)
    have differ (name front : String) (k : Nat)
        (letter : name.toList.head? ≠ (front.toList.head?.or (natText k).toList.head?)) :
        name ≠ front ++ natText k := by
      rintro rfl
      rw [String.toList_append, List.head?_append] at letter
      exact letter rfl
    refine List.nodup_cons.mpr ⟨?_, List.nodup_cons.mpr ⟨?_, nodup_choiceSlots 1 options⟩⟩
    · rw [List.map_cons, List.mem_cons, not_or]
      exact ⟨by simp, other "type" (fun k => differ _ _ k (by simp)) fun k => differ _ _ k
        (by simp)⟩
    · exact other "description" (fun k => differ _ _ k (by simp)) fun k => differ _ _ k (by simp)
  | _ => simp [slots, Field.slots, boundSlots, ruleSlots, TextRules.entries, ClockTimes.entries]

theorem marks_intText (n : Int) : ∀ c ∈ (intText n).toList, Numeral.IsMark c := by
  rw [intText, String.toList_ofList]
  exact Numeral.intChars_marks n

theorem quotable_boundSlots {bounds : Bounds} {name : String} {t : Template}
    (member : (name, some t) ∈ boundSlots bounds) : t.Quotable := by
  simp only [boundSlots, List.mem_cons, Prod.mk.injEq, List.not_mem_nil, or_false] at member
  rcases member with ⟨_, filled⟩ | ⟨_, filled⟩
  all_goals
    obtain ⟨n, _, rfl⟩ := Option.map_eq_some_iff.mp filled.symm
    exact quotable_marks (marks_intText n)

theorem quotable_ruleSlots {rules : TextRules} {name : String} {t : Template}
    (member : (name, some t) ∈ ruleSlots rules) : t.Quotable := by
  obtain ⟨⟨_, value, standard⟩, _, same⟩ := List.mem_map.mp member
  obtain ⟨_, filled⟩ := Prod.mk.inj same
  split at filled
  · cases filled
  · cases filled
    cases value
    · exact quotable_plain (by decide)
    · exact quotable_plain (by decide)

theorem quotable_choiceSlots {number : Nat} {options : List Choice} {name : String} {t : Template}
    (named : ∀ o ∈ options, isName o.variableName.toList) (labels : ∀ o ∈ options, o.label.Quotable)
    (member : (name, some t) ∈ choiceSlots number options) : t.Quotable := by
  induction options generalizing number with
  | nil => cases member
  | cons o rest ih =>
    rw [choiceSlots, List.mem_cons, List.mem_cons] at member
    rcases member with same | same | later
    · cases same
      exact Template.quotable_single (named o List.mem_cons_self)
    · cases same
      exact labels o List.mem_cons_self
    · exact ih (fun o' inside => named o' (List.mem_cons_of_mem o inside))
        (fun o' inside => labels o' (List.mem_cons_of_mem o inside)) later

theorem quotable_fieldSlots {field : Field} {name : String} {t : Template} (fits : field.Fits)
    (quotable : ∀ t ∈ field.templates, t.Quotable) (member : (name, some t) ∈ field.slots) :
    t.Quotable := by
  cases field with
  | email target =>
    cases List.mem_singleton.mp member
    exact Template.quotable_single fits
  | text target bounds rules | longText target bounds rules =>
    rcases List.mem_cons.mp member with same | member
    · cases same
      exact Template.quotable_single fits.1
    rcases List.mem_append.mp member with bound | rule
    · exact quotable_boundSlots bound
    · exact quotable_ruleSlots rule
  | numeric target bounds =>
    rcases List.mem_cons.mp member with same | bound
    · cases same
      exact Template.quotable_single fits.1
    · exact quotable_boundSlots bound
  | choices options =>
    exact quotable_choiceSlots fits
      (fun o inside => quotable o.label (List.mem_map_of_mem inside)) member
  | time target granularity times =>
    obtain ⟨named, _, _, _⟩ := fits
    rcases List.mem_cons.mp member with same | member
    · cases same
      exact Template.quotable_single named
    rcases List.mem_cons.mp member with same | member
    · cases same
      exact quotable_marks (marks_intText granularity)
    · exact quotable t (List.mem_filterMap.mpr ⟨_, member, rfl⟩)

theorem Sound.attributes {i : Input} (sound : i.Sound) : Attributes.Sound (present i.slots) := by
  refine sound_present (named_slots i) (nodup_slots i) fun name t member => ?_
  rw [slots, List.mem_cons, List.mem_cons] at member
  rcases member with same | same | member
  · cases same
    have letters : ∀ c ∈ i.field.typeName.toList, isNameChar c := by
      cases i.field <;> simp only [Field.typeName] <;> decide
    exact quotable_plain letters
  · obtain ⟨_, filled⟩ := Prod.mk.inj same
    obtain ⟨d, given, rfl⟩ := Option.map_eq_some_iff.mp filled.symm
    exact Template.quotable_ofText (sound.fits.description d given).2
  · exact quotable_fieldSlots sound.fits.field sound.quotable member

/-! What is written of an input -/

/-- What is written of a slot. -/
def slotText (slot : String × Option Template) : String :=
  (slot.2.map fun t => parameterText (slot.1, t)).getD ""

theorem join_present (slots : List (String × Option Template)) :
    String.join ((present slots).map parameterText) = String.join (slots.map slotText) := by
  induction slots with
  | nil => rfl
  | cons slot rest ih =>
    obtain ⟨name, t⟩ := slot
    rw [present_cons, List.map_append, String.join_append, ih, List.map_cons, String.join_cons]
    cases t with
    | none => simp [slotText]
    | some t => simp [slotText]

theorem slotText_int (name : String) (n : Option Int) :
    slotText (name, n.map fun n => .ofText (intText n)) =
      (n.map fun n => attributeText name (intText n)).getD "" := by
  cases n with
  | none => rfl
  | some n =>
    simp [slotText, parameterText, Template.toScript_ofText, escapeText_marks (marks_intText n)]

theorem join_boundSlots (bounds : Bounds) :
    String.join ((boundSlots bounds).map slotText) = boundsText bounds := by
  obtain ⟨least, most⟩ := bounds
  simp only [boundSlots, List.map_cons, slotText_int, List.map_nil, boundsText, boundValues]
  cases least <;> cases most <;> simp [Value.written]

theorem join_ruleSlots (rules : TextRules) :
    String.join ((ruleSlots rules).map slotText) = rulesText rules := by
  rw [ruleSlots, List.map_map, rulesText]
  congr 2
  funext entry
  obtain ⟨name, value, standard⟩ := entry
  have letters (b : Bool) : ∀ c ∈ (if b then "true" else "false").toList, isNameChar c := by
    cases b <;> decide
  have plain := escapeText_name (letters value)
  simp only [Function.comp_apply]
  split
  · rfl
  · simp only [slotText, Option.map_some, Option.getD_some, parameterText, Template.toScript_ofText,
      plain]

theorem join_choiceSlots (number : Nat) (options : List Choice) :
    String.join ((choiceSlots number options).map slotText) = choicesText number options := by
  induction options generalizing number with
  | nil => rfl
  | cons o rest ih =>
    simp [choiceSlots, choicesText, ih, slotText, parameterText, Template.toScript_single,
      String.append_assoc]

theorem slotText_template (name : String) (t : Option Template) :
    slotText (name, t) = (t.map fun t => attributeText name (t.toScript .quoted)).getD "" := by
  cases t <;> rfl

theorem join_fieldSlots (field : Field) :
    String.join (field.slots.map slotText) = fieldText field := by
  cases field with
  | email target =>
    simp [Field.slots, slotText, parameterText, Template.toScript_single, fieldText]
  | text target bounds rules | longText target bounds rules =>
    simp [Field.slots, slotText, parameterText, Template.toScript_single, fieldText,
      String.join_append, join_boundSlots, join_ruleSlots, String.append_assoc]
  | numeric target bounds =>
    simp [Field.slots, slotText, parameterText, Template.toScript_single, fieldText,
      join_boundSlots]
  | choices options => exact join_choiceSlots 1 options
  | time target granularity times =>
    have plain := escapeText_marks (marks_intText granularity)
    simp [Field.slots, slotText_template, Template.toScript_single, Template.toScript_ofText, plain,
      fieldText, ClockTimes.entries, String.append_assoc]

theorem toScript_eq (i : Input) :
    i.toScript = "<<input" ++ String.join ((present i.slots).map parameterText) ++ ">>" := by
  have letters : ∀ c ∈ i.field.typeName.toList, isNameChar c := by
    cases i.field <;> simp only [Field.typeName] <;> decide
  have plain := escapeText_name letters
  rw [join_present, slots, List.map_cons, List.map_cons, String.join_cons, String.join_cons,
    join_fieldSlots]
  cases description : i.description with
  | none =>
    simp [toScript, description, slotText_template, Template.toScript_ofText, plain,
      String.append_assoc]
  | some d =>
    simp [toScript, description, slotText_template, Template.toScript_ofText, plain,
      String.append_assoc]

/-! What is read of an input -/

section Reading

variable {i : Input} {found : Attributes}

theorem get?_slots (i : Input) (name : String) :
    Assoc.get? name (present i.slots) = (Assoc.get? name i.slots).join :=
  get?_present (nodup_slots i) name

theorem targetOf_of_lists {attributes : List (String × Template)} {name target : String}
    (listed : Attributes.Lists found.entries attributes)
    (given : Assoc.get? name attributes = some (.single target)) :
    targetOf found name = .ok target := by
  rw [targetOf, Attributes.varName_of_lists listed given]
  rfl

theorem boundsOf_of_lists {attributes : List (String × Template)} {bounds : Bounds}
    (listed : Attributes.Lists found.entries attributes) (sound : bounds.Sound)
    (least : Assoc.get? "min" attributes = bounds.least.map fun n => .ofText (intText n))
    (most : Assoc.get? "max" attributes = bounds.most.map fun n => .ofText (intText n)) :
    boundsOf found = .ok bounds := by
  have first : found.integer "min" false none none = .ok bounds.least :=
    Attributes.integer_of_lists listed least sound.1 nofun
  have second : found.integer "max" false none none = .ok bounds.most :=
    Attributes.integer_of_lists listed most sound.2 nofun
  rw [boundsOf, first, ok_bind, second]
  rfl

theorem rules_of_lists {attributes : List (String × Template)} {rules : TextRules}
    (listed : Attributes.Lists found.entries attributes)
    (given : ∀ entry ∈ rules.entries, Assoc.get? entry.1 attributes =
      if entry.2.1 = entry.2.2 then none
        else some (.ofText (if entry.2.1 then "true" else "false"))) :
    TextRules.read (fun name => found.boolean name false) = .ok rules := by
  have each (name : String) (value standard : Bool)
      (entry : (name, value, standard) ∈ rules.entries) :
      found.boolean name false = .ok (if value = standard then none else some value) := by
    refine Attributes.boolean_of_lists listed ?_
    rw [given _ entry]
    dsimp only
    split <;> rfl
  have settle (value standard : Bool) :
      (if value = standard then none else some value).getD standard = value := by
    cases value <;> cases standard <;> rfl
  obtain ⟨a, b, c, d, e, f, g, h, k⟩ := rules
  simp only [TextRules.entries, List.mem_cons, List.not_mem_nil, or_false] at each
  unfold TextRules.read
  dsimp only
  rw [each "allowNumbers" a true (by simp), each "allowSpecialCharacters" b true (by simp),
    each "allowSpaces" c true (by simp), each "capCharacters" d false (by simp),
    each "capWords" e false (by simp), each "capSentences" f false (by simp),
    each "forceCapCharacters" g false (by simp), each "forceCapWords" h false (by simp),
    each "forceCapSentences" k false (by simp)]
  simp only [ok_bind, settle, pure_eq_ok]

/-- The options are read from a number on. -/
theorem choicesOf_of_lists {options : List Choice} {attributes : List (String × Template)}
    (listed : Attributes.Lists found.entries attributes)
    (given : ∀ k, Assoc.get? ("value" ++ natText (1 + k)) attributes =
        options[k]?.map (fun o => .single o.variableName) ∧
      Assoc.get? ("option" ++ natText (1 + k)) attributes = options[k]?.map (·.label))
    {k fuel : Nat} (enough : options.length < k + fuel) (within : k ≤ options.length) :
    choicesOf found (1 + k) fuel = .ok (options.drop k) := by
  have has (name : String) : found.has name = (Assoc.get? name attributes).isSome := by
    rw [← Attributes.get?_of_lists listed, Option.isSome_map]
    rfl
  induction fuel generalizing k with
  | zero => omega
  | succ fuel ih =>
    obtain ⟨value, option⟩ := given k
    rw [choicesOf]
    simp only [has, value, option, Option.isSome_map]
    -- the first number without an option ends them
    by_cases last : k = options.length
    · have none : options[k]? = none := List.getElem?_eq_none (by omega)
      rw [none, List.drop_eq_nil_of_le (by omega)]
      rfl
    · have inside : k < options.length := by omega
      have this : options[k]? = some options[k] := List.getElem?_eq_getElem inside
      rw [this] at value option
      have target := targetOf_of_lists listed value
      have label : found.template ("option" ++ natText (1 + k)) false =
          .ok (Assoc.get? ("option" ++ natText (1 + k)) attributes) :=
        Attributes.template_of_lists listed (by simp)
      have later := @ih (k + 1) (by omega) (by omega)
      rw [← Nat.add_assoc] at later
      rw [option] at label
      simp only [this, target, label, later, Option.map_some, Option.isSome_some, Bool.not_true,
        Bool.false_and, Bool.false_eq_true, if_false, ok_bind, pure_eq_ok, Option.getD_some]
      exact congrArg _ (List.drop_eq_getElem_cons inside).symm

theorem timeOf_of_lists {attributes : List (String × Template)} {name : String}
    {time : Option Template} (listed : Attributes.Lists found.entries attributes)
    (given : Assoc.get? name attributes = time) (isTime : ∀ t ∈ time, IsTime t) :
    timeOf found name = .ok time := by
  have read : found.template name false = .ok (Assoc.get? name attributes) :=
    Attributes.template_of_lists listed nofun
  rw [timeOf, read, given]
  cases time with
  | none => rfl
  | some t =>
    rcases isTime t rfl with open_ | ⟨s, rfl, normal⟩
    · simp [open_]
    · simp [Template.isPlain_ofText, Template.plainText_ofText, normal]

theorem granularity_of_lists {attributes : List (String × Template)} {name : String} {n : Int}
    (listed : Attributes.Lists found.entries attributes)
    (given : Assoc.get? name attributes = some (.ofText (intText n))) (positive : 1 ≤ n)
    (short : Attributes.Short n) :
    found.integer name false (some (.whole 1)) none = .ok (some n) := by
  have kept : ∀ m ∈ some n, Attributes.Short m := by
    rintro m ⟨⟩
    exact short
  refine Attributes.integer_of_lists listed given kept ?_
  rintro m ⟨⟩ bound ⟨⟩
  simp only [Number.value, Value.order?, ne_eq, Option.some.injEq, compare_lt_iff_lt]
  omega

theorem get?_ruleSlots {rules : TextRules} (within : ∀ p ∈ ruleSlots rules, p ∈ i.slots) :
    ∀ entry ∈ rules.entries, Assoc.get? entry.1 (present i.slots) =
      if entry.2.1 = entry.2.2 then none
        else some (.ofText (if entry.2.1 then "true" else "false")) := by
  intro entry member
  have slot := within _ (List.mem_map_of_mem member)
  rw [get?_slots, Assoc.get?_of_mem (nodup_slots i) slot]
  rfl

theorem length_choiceSlots (number : Nat) (options : List Choice) :
    options.length ≤ (present (choiceSlots number options)).length := by
  induction options generalizing number with
  | nil => exact Nat.zero_le _
  | cons o rest ih =>
    have later := ih (number + 1)
    simp only [choiceSlots, present_cons, List.length_append, Option.map_some, Option.toList_some,
      List.length_cons]
    omega

theorem get?_choices (options : List Choice) (description : Option String) (k : Nat) :
    Assoc.get? ("value" ++ natText (1 + k)) (present (slots ⟨description, .choices options⟩)) =
        options[k]?.map (fun o => .single o.variableName) ∧
      Assoc.get? ("option" ++ natText (1 + k)) (present (slots ⟨description, .choices options⟩)) =
        options[k]?.map (·.label) := by
  have skip (front : String) (first : front.toList.head? ≠ "type".toList.head?)
      (second : front.toList.head? ≠ "description".toList.head?) (some : front.toList ≠ []) :
      Assoc.get? (front ++ natText (1 + k)) (slots ⟨description, .choices options⟩) =
        Assoc.get? (front ++ natText (1 + k)) (choiceSlots 1 options) := by
    have differ (name : String) (other : front.toList.head? ≠ name.toList.head?) :
        name ≠ front ++ natText (1 + k) := by
      rintro rfl
      rw [String.toList_append, List.head?_append_of_ne_nil _ some] at other
      exact other rfl
    rw [slots, Assoc.get?, if_neg (differ _ first), Assoc.get?, if_neg (differ _ second)]
    rfl
  have both := @get?_choiceSlots 1 k options
  rw [get?_slots, get?_slots, skip "value" (by decide) (by decide) (by decide),
    skip "option" (by decide) (by decide) (by decide), both.1, both.2]
  cases options[k]? <;> exact ⟨rfl, rfl⟩

theorem fieldOf_of_lists (fits : i.field.Fits)
    (listed : Attributes.Lists found.entries (present i.slots)) :
    fieldOf found i.field.typeName = .ok i.field := by
  have slot := get?_slots i
  obtain ⟨description, field⟩ := i
  cases field with
  | email target =>
    have value := targetOf_of_lists listed (slot "value")
    simp [fieldOf, Field.typeName, value]
  | text target bounds rules =>
    have value := targetOf_of_lists listed (slot "value")
    have read := boundsOf_of_lists listed fits.2 (slot "min") (slot "max")
    have within : ∀ p ∈ ruleSlots rules, p ∈ slots ⟨description, .text target bounds rules⟩ :=
      fun p member => by simp [slots, Field.slots, member]
    have given := rules_of_lists listed (get?_ruleSlots within)
    simp [fieldOf, Field.typeName, value, read, given]
  | longText target bounds rules =>
    have value := targetOf_of_lists listed (slot "value")
    have read := boundsOf_of_lists listed fits.2 (slot "min") (slot "max")
    have within : ∀ p ∈ ruleSlots rules, p ∈ slots ⟨description, .longText target bounds rules⟩ :=
      fun p member => by simp [slots, Field.slots, member]
    have given := rules_of_lists listed (get?_ruleSlots within)
    simp [fieldOf, Field.typeName, value, read, given]
  | numeric target bounds =>
    have value := targetOf_of_lists listed (slot "value")
    have read := boundsOf_of_lists listed fits.2 (slot "min") (slot "max")
    simp [fieldOf, Field.typeName, value, read]
  | choices options =>
    have length : options.length < 0 + (found.entries.length + 1) := by
      have entries := congrArg List.length listed
      have least := length_choiceSlots 1 options
      simp only [List.length_map, slots, Field.slots, present_cons, List.length_append] at entries
      omega
    have read := choicesOf_of_lists listed (get?_choices options description) length (Nat.zero_le _)
    rw [List.drop_zero] at read
    have read : choicesOf found 1 (found.entries.length + 1) = .ok options := read
    simp [fieldOf, Field.typeName, read]
  | time target granularity times =>
    obtain ⟨_, positive, short, each⟩ := fits
    have value := targetOf_of_lists listed (slot "value")
    have minutes := granularity_of_lists listed (slot "granularityMinutes") positive short
    have isTime : ∀ entry ∈ times.entries, ∀ t ∈ entry.2, IsTime t := by
      rintro ⟨name, time⟩ inside t rfl
      exact each t (List.mem_filterMap.mpr ⟨_, inside, rfl⟩)
    have first : timeOf found "startTime" = .ok times.start :=
      timeOf_of_lists listed (slot "startTime")
        (isTime ("startTime", _) (by simp [ClockTimes.entries]))
    have second : timeOf found "minTime" = .ok times.least :=
      timeOf_of_lists listed (slot "minTime") (isTime ("minTime", _) (by simp [ClockTimes.entries]))
    have third : timeOf found "maxTime" = .ok times.most :=
      timeOf_of_lists listed (slot "maxTime") (isTime ("maxTime", _) (by simp [ClockTimes.entries]))
    simp [fieldOf, Field.typeName, value, minutes, first, second, third]

/-- An input is read from attributes in which it is written. -/
theorem ofAttributes_of_lists (fits : i.Fits)
    (listed : Attributes.Lists found.entries (present i.slots)) : ofAttributes found = .ok i := by
  have type : found.plain "type" true = .ok (some i.field.typeName) :=
    Attributes.plain_of_lists listed (by rw [get?_slots]; rfl) fun _ => rfl
  have description : found.plain "description" false = .ok i.description :=
    Attributes.plain_of_lists listed (by rw [get?_slots]; simp [slots, Assoc.get?]) nofun
  have known : types.contains i.field.typeName = true := by
    cases i.field <;> simp only [Field.typeName] <;> decide
  have kept : i.description.filter (!·.isEmpty) = i.description := by
    cases given : i.description with
    | none => rfl
    | some d => simp [(fits.description d given).1]
  unfold ofAttributes
  rw [type]
  simp only [ok_bind, Option.getD_some, known, description, fieldOf_of_lists fits.field listed,
    kept]
  rfl

end Reading

end Input

end Parley
