import Parley.Proofs.Body.Replies
import Parley.Proofs.Body.Tokens
import Parley.Proofs.Template.Firm
import Parley.Proofs.Time.LocalTime

/-!
What holds of all that is read from the tokens of a text: of attributes, and of the actions, inputs,
weights, pointers and replies that are made of them.
-/
namespace Parley

open Tokenizer

/-! Attributes -/

namespace Attributes

/-- Whether attributes are what can be found in a text. -/
structure Fit (entries : List (String × Attribute)) : Prop where
  named : ∀ p ∈ entries, isName p.1.toList
  framed : ∀ p ∈ entries, p.2.value.Framed
  single : (entries.map (·.1)).Nodup

theorem isName_of_nameIn {written : List Char} {position : Position} {name : String}
    (read : nameIn written position = .ok name) : isName name.toList := by
  unfold nameIn at read
  dsimp only at read
  split at read
  · cases read
  · rename_i named
    split at read
    · cases read
    · split at read
      · cases read
        rw [String.toList_ofList]
        simpa using named
      · cases read

theorem Fit.insert {name : String} {value : Attribute} {entries : List (String × Attribute)}
    (fit : Fit entries) (named : isName name.toList) (framed : value.value.Framed) :
    Fit (Assoc.insert name value entries) := by
  refine ⟨fun p member => ?_, fun p member => ?_, ?_⟩
  · rcases Assoc.mem_insert member with rfl | inside
    · exact named
    · exact fit.named p inside
  · rcases Assoc.mem_insert member with rfl | inside
    · exact framed
    · exact fit.framed p inside
  · exact Assoc.keys_nodup_insert fit.single name value

theorem fit_of_collect {command : Enclosed} {found entries : List (String × Attribute)}
    {tokens : List Token} (fits : ∀ t ∈ tokens, t.Fit) (fit : Fit found)
    (read : collect command found tokens = .ok entries) : Fit entries := by
  replace read := collects_of_collect read
  induction read with
  | stop => exact fit
  | @entry found entries t v rest others name value q text named blank quote _ ih =>
    have behind : ∀ u ∈ v :: others, u.Fit := fun u inside =>
      fits u (List.mem_cons_of_mem t ((List.dropWhile_suffix _).subset (blank ▸ inside)))
    have framed : q.Framed := by
      have here : v.content.Fit := behind v List.mem_cons_self
      rwa [quote] at here
    refine ih (fun u inside => behind u (List.mem_cons_of_mem v ?_))
      (fit.insert (isName_of_nameIn named) framed)
    exact (List.dropWhile_suffix _).subset inside

theorem fit_of_ofCommand {e : Enclosed} {found : Attributes} (fits : ∀ t ∈ e.inner, t.Fit)
    (read : ofCommand e = .ok found) : Fit found.entries := by
  obtain ⟨entries, collected, same⟩ := bind_eq_ok_iff.mp read
  cases same
  refine fit_of_collect (fun t member => ?_) ⟨by simp, by simp, by simp⟩ collected
  cases tokens : e.inner with
  | nil =>
    rw [tokens] at member
    cases member
  | cons first rest =>
    rw [tokens] at fits member
    simp only [behindName] at member
    split at member
    · split at member
      · exact fits t (List.mem_cons_of_mem first ((List.dropWhile_suffix _).subset member))
      · rcases List.mem_cons.mp member with rfl | later
        · trivial
        · exact fits t (List.mem_cons_of_mem first later)
    · exact fits t member

variable {a : Attributes} {name : String} {required : Bool}

theorem framed_of_template {t : Template} (fit : Fit a.entries)
    (read : a.template name required = .ok (some t)) : t.Framed := by
  unfold template at read
  split at read
  · rename_i found here
    cases read
    exact fit.framed _ (Assoc.mem_of_get? here)
  · split at read <;> cases read

theorem exists_of_required {o : Option Template} (read : a.template name true = .ok o) :
    ∃ t, o = some t := by
  unfold template at read
  split at read
  · cases read
    exact ⟨_, rfl⟩
  · cases read

theorem exists_of_plain {o : Option String} (read : a.plain name required = .ok o) :
    ∃ found, a.template name required = .ok found ∧ ∀ s ∈ o, ∃ t, found = some t ∧ t.isPlain ∧
      s = t.plainText := by
  obtain ⟨found, template, read⟩ := bind_eq_ok_iff.mp read
  refine ⟨found, template, ?_⟩
  cases found with
  | none =>
    cases read
    simp
  | some t =>
    dsimp only at read
    split at read
    · rename_i plain
      cases read
      rintro s ⟨⟩
      exact ⟨t, rfl, plain, rfl⟩
    · cases read

/-- No line ends in a plain value. -/
theorem flat_of_plain {s : String} (fit : Fit a.entries)
    (read : a.plain name required = .ok (some s)) :
    ∀ c ∈ s.toList, isLineBreak c = false := by
  obtain ⟨found, template, here⟩ := exists_of_plain read
  obtain ⟨t, rfl, plain, rfl⟩ := here s rfl
  intro c member
  refine (framed_of_template fit template).flat c ?_
  rw [Template.atoms_of_isPlain plain]
  exact List.mem_map_of_mem member

theorem isName_of_varName {target : String} (fit : Fit a.entries)
    (read : a.varName name required = .ok (some target)) : isName target.toList := by
  obtain ⟨found, template, read⟩ := bind_eq_ok_iff.mp read
  cases found with
  | none => cases read
  | some t =>
    dsimp only at read
    split at read
    · rename_i other single
      cases read
      refine (framed_of_template fit template).named target ?_
      unfold Template.singleVar? at single
      split at single
      · rename_i parts
        cases single
        simp [Template.atoms, parts, Part.atoms]
      · cases single
    · cases read

theorem least_of_checkBounds {n : Number} {least most : Option Number} {u : Unit}
    (read : a.checkBounds name n least most = .ok u) :
    ∀ bound ∈ least, n.value.order? bound.value ≠ some .lt := by
  rintro bound rfl
  unfold checkBounds at read
  intro less
  simp [less, fail] at read

/-- A whole number that is read can be written, and keeps its least bound. -/
theorem short_of_integer {n : Int} {least most : Option Number}
    (read : a.integer name required least most = .ok (some n)) :
    Short n ∧ ∀ bound ∈ least, (Number.whole n).value.order? bound.value ≠ some .lt := by
  obtain ⟨found, plain, read⟩ := bind_eq_ok_iff.mp read
  cases found with
  | none => cases read
  | some text =>
    dsimp only at read
    split at read
    · cases read
    · rename_i m number
      obtain ⟨_, bounds, same⟩ := bind_eq_ok_iff.mp read
      cases same
      exact ⟨Numeral.length_of_int number, least_of_checkBounds bounds⟩

theorem finite_of_number {x : Binary64} {least most : Option Number}
    (read : a.number name required least most = .ok (some x)) :
    x.isFinite ∧ ∀ bound ∈ least, (Number.binary x).value.order? bound.value ≠ some .lt := by
  obtain ⟨found, plain, read⟩ := bind_eq_ok_iff.mp read
  cases found with
  | none => cases read
  | some text =>
    dsimp only at read
    split at read
    · cases read
    · split at read
      · rename_i y number finite
        obtain ⟨_, bounds, same⟩ := bind_eq_ok_iff.mp read
        cases same
        exact ⟨finite, least_of_checkBounds bounds⟩
      · cases read

end Attributes

/-! Actions and weights -/

theorem Action.fits_of_ofAttributes {a : Attributes} {action : Action}
    (fit : Attributes.Fit a.entries)
    (read : Action.ofAttributes a = .ok action) :
    action.Fits ∧ ∀ t ∈ action.templates, t.Framed := by
  unfold Action.ofAttributes at read
  obtain ⟨type, _, read⟩ := bind_eq_ok_iff.mp read
  dsimp only at read
  split at read
  · cases read
  · obtain ⟨value, template, read⟩ := bind_eq_ok_iff.mp read
    obtain ⟨t, rfl⟩ := Attributes.exists_of_required template
    cases read
    have others : ∀ p ∈ (a.entries.filter fun x => x.1 != "type" && x.1 != "value"),
        p ∈ a.entries ∧ p.1 ≠ "type" ∧ p.1 ≠ "value" := by
      intro p member
      simpa using List.mem_filter.mp member
    refine ⟨⟨?_, ?_, ?_⟩, ?_⟩
    · intro p member
      obtain ⟨q, inside, rfl⟩ := List.mem_map.mp member
      exact fit.named q (others q inside).1
    · rw [List.map_map]
      exact fit.single.sublist (List.Sublist.map _ List.filter_sublist)
    · intro p member
      obtain ⟨q, inside, rfl⟩ := List.mem_map.mp member
      exact (others q inside).2
    · intro u member
      rcases List.mem_cons.mp member with rfl | member
      · exact Attributes.framed_of_template fit template
      · obtain ⟨p, inside, rfl⟩ := List.mem_map.mp member
        obtain ⟨q, here, rfl⟩ := List.mem_map.mp inside
        exact fit.framed q (others q here).1

theorem weighs_of_weightOf {a : Attributes} {w : Number} (read : weightOf a = .ok w) :
    Weighs w := by
  obtain ⟨weight, number, same⟩ := bind_eq_ok_iff.mp read
  cases same
  cases weight with
  | none => exact ⟨by decide +kernel, .inl (by decide +kernel)⟩
  | some x =>
    obtain ⟨finite, positive⟩ := Attributes.finite_of_number number
    have least := positive _ rfl
    refine ⟨finite, ?_⟩
    cases x with
    | nan => cases finite
    | infinite negative => cases finite
    | finite negative significand power h =>
      cases negative with
      | false => exact .inl rfl
      -- the weight is not below zero, so a sign in front of it is that of zero
      | true =>
        refine .inr (beq_iff_eq.mpr (Nat.eq_zero_of_not_pos fun some => least ?_))
        have units : 0 < Binary64.units significand power :=
          Nat.mul_pos some (Nat.two_pow_pos power)
        simp only [Number.value, Value.order?, Binary64.zero, Binary64.compare?, Option.getD_some,
          Option.some.injEq, compare_lt_iff_lt]
        simp [Binary64.units] at units ⊢
        omega

/-! Inputs -/

theorem Template.framed_ofText {s : String} (flat : ∀ c ∈ s.toList, isLineBreak c = false) :
    (Template.ofText s).Framed := by
  constructor
  · intro name member
    simp [Template.atoms_ofText] at member
  · intro c member
    rw [Template.atoms_ofText] at member
    obtain ⟨d, inside, same⟩ := List.mem_map.mp member
    cases same
    exact flat c inside

namespace Input

variable {a : Attributes}

theorem isName_of_targetOf {name target : String} (fit : Attributes.Fit a.entries)
    (read : targetOf a name = .ok target) : isName target.toList := by
  obtain ⟨found, varName, same⟩ := bind_eq_ok_iff.mp read
  cases same
  cases found with
  | none =>
    obtain ⟨o, template, rest⟩ := bind_eq_ok_iff.mp varName
    obtain ⟨t, rfl⟩ := Attributes.exists_of_required template
    dsimp only at rest
    split at rest <;> cases rest
  | some written => exact Attributes.isName_of_varName fit varName

theorem sound_of_boundsOf {bounds : Bounds} (read : boundsOf a = .ok bounds) : bounds.Sound := by
  obtain ⟨least, first, read⟩ := bind_eq_ok_iff.mp read
  obtain ⟨most, second, same⟩ := bind_eq_ok_iff.mp read
  cases same
  constructor
  · rintro n rfl
    exact (Attributes.short_of_integer first).1
  · rintro n rfl
    exact (Attributes.short_of_integer second).1

theorem fits_of_choicesOf {number fuel : Nat} {options : List Choice}
    (fit : Attributes.Fit a.entries) (read : choicesOf a number fuel = .ok options) :
    ∀ o ∈ options, isName o.variableName.toList ∧ o.label.Framed := by
  induction fuel generalizing number options with
  | zero =>
    cases read
    simp
  | succ fuel ih =>
    rw [choicesOf] at read
    dsimp only at read
    split at read
    · cases read
      simp
    · split at read
      · cases read
      · split at read
        · cases read
        · obtain ⟨target, named, read⟩ := bind_eq_ok_iff.mp read
          obtain ⟨label, template, read⟩ := bind_eq_ok_iff.mp read
          obtain ⟨rest, later, same⟩ := bind_eq_ok_iff.mp read
          cases same
          intro o member
          rcases List.mem_cons.mp member with rfl | inside
          · refine ⟨isName_of_targetOf fit named, ?_⟩
            cases label with
            | none => exact Template.framed_empty
            | some t => exact Attributes.framed_of_template fit template
          · exact ih later o inside

theorem isTime_of_timeOf {name : String} {time : Option Template} (fit : Attributes.Fit a.entries)
    (read : timeOf a name = .ok time) : ∀ t ∈ time, IsTime t ∧ t.Framed := by
  obtain ⟨found, template, read⟩ := bind_eq_ok_iff.mp read
  cases found with
  | none =>
    cases read
    simp
  | some u =>
    dsimp only at read
    split at read
    · split at read
      · rename_i text normal
        cases read
        rintro t ⟨⟩
        refine ⟨.inr ⟨text, rfl, LocalTime.normalize_of_normalize normal⟩, ?_⟩
        refine Template.framed_ofText fun c member => ?_
        obtain ⟨least, most⟩ := LocalTime.printed_of_normalize normal c member
        exact isLineBreak_of_printed least most
      · cases read
    · rename_i open_
      cases read
      rintro t ⟨⟩
      exact ⟨.inl (by simpa using open_), Attributes.framed_of_template fit template⟩

theorem isTime_of_times {times : ClockTimes} (fit : Attributes.Fit a.entries)
    (first : timeOf a "startTime" = .ok times.start) (second : timeOf a "minTime" = .ok times.least)
    (third : timeOf a "maxTime" = .ok times.most) : ∀ t ∈ times.templates, IsTime t ∧ t.Framed := by
  intro t member
  obtain ⟨⟨name, time⟩, inside, rfl⟩ := List.mem_filterMap.mp member
  simp only [ClockTimes.entries, List.mem_cons, Prod.mk.injEq, List.not_mem_nil,
    or_false] at inside
  rcases inside with ⟨_, here⟩ | ⟨_, here⟩ | ⟨_, here⟩
  · exact isTime_of_timeOf fit first t here.symm
  · exact isTime_of_timeOf fit second t here.symm
  · exact isTime_of_timeOf fit third t here.symm

/-- The steps of a clock are positive, also where none are given. -/
theorem short_of_granularity {name : String} {granularity : Option Int} {most : Option Number}
    (read : a.integer name false (some (.whole 1)) most = .ok granularity) :
    1 ≤ granularity.getD 1 ∧ Attributes.Short (granularity.getD 1) := by
  cases granularity with
  | none =>
    have short : (natChars 1).length ≤ maxDigits := by decide
    exact ⟨Int.le_refl 1, short⟩
  | some n =>
    obtain ⟨short, least⟩ := Attributes.short_of_integer read
    have bound : compare n 1 ≠ .lt := fun less => least _ rfl (congrArg some less)
    rw [Ne, compare_lt_iff_lt] at bound
    exact ⟨by simpa using bound, short⟩

theorem fits_of_fieldOf {type : String} {field : Field} (fit : Attributes.Fit a.entries)
    (read : fieldOf a type = .ok field) : field.Fits ∧ ∀ t ∈ field.templates, t.Framed := by
  unfold fieldOf at read
  split at read
  · obtain ⟨target, named, same⟩ := bind_eq_ok_iff.mp read
    cases same
    exact ⟨isName_of_targetOf fit named, by simp [Field.templates]⟩
  · obtain ⟨target, named, read⟩ := bind_eq_ok_iff.mp read
    obtain ⟨bounds, limits, read⟩ := bind_eq_ok_iff.mp read
    obtain ⟨rules, _, same⟩ := bind_eq_ok_iff.mp read
    cases same
    exact ⟨⟨isName_of_targetOf fit named, sound_of_boundsOf limits⟩, by simp [Field.templates]⟩
  · obtain ⟨target, named, read⟩ := bind_eq_ok_iff.mp read
    obtain ⟨bounds, limits, read⟩ := bind_eq_ok_iff.mp read
    obtain ⟨rules, _, same⟩ := bind_eq_ok_iff.mp read
    cases same
    exact ⟨⟨isName_of_targetOf fit named, sound_of_boundsOf limits⟩, by simp [Field.templates]⟩
  · obtain ⟨target, named, read⟩ := bind_eq_ok_iff.mp read
    obtain ⟨bounds, limits, same⟩ := bind_eq_ok_iff.mp read
    cases same
    exact ⟨⟨isName_of_targetOf fit named, sound_of_boundsOf limits⟩, by simp [Field.templates]⟩
  · obtain ⟨options, listed, same⟩ := bind_eq_ok_iff.mp read
    cases same
    have each := fits_of_choicesOf fit listed
    refine ⟨fun o member => (each o member).1, fun t member => ?_⟩
    obtain ⟨o, inside, rfl⟩ := List.mem_map.mp member
    exact (each o inside).2
  · obtain ⟨granularity, minutes, read⟩ := bind_eq_ok_iff.mp read
    obtain ⟨start, first, read⟩ := bind_eq_ok_iff.mp read
    obtain ⟨least, second, read⟩ := bind_eq_ok_iff.mp read
    obtain ⟨most, third, read⟩ := bind_eq_ok_iff.mp read
    obtain ⟨target, named, same⟩ := bind_eq_ok_iff.mp read
    cases same
    have times : ∀ t ∈ (ClockTimes.mk start least most).templates, IsTime t ∧ t.Framed :=
      isTime_of_times fit first second third
    have step := short_of_granularity minutes
    exact ⟨⟨isName_of_targetOf fit named, step.1, step.2, fun t member => (times t member).1⟩,
      fun t member => (times t member).2⟩

theorem fits_of_ofAttributes {i : Input} (fit : Attributes.Fit a.entries)
    (read : ofAttributes a = .ok i) : i.Fits ∧ ∀ t ∈ i.templates, t.Framed := by
  obtain ⟨type, _, read⟩ := bind_eq_ok_iff.mp read
  dsimp only at read
  split at read
  · cases read
  · obtain ⟨description, plain, read⟩ := bind_eq_ok_iff.mp read
    obtain ⟨field, found, same⟩ := bind_eq_ok_iff.mp read
    cases same
    obtain ⟨fits, framed⟩ := fits_of_fieldOf fit found
    refine ⟨⟨fun d given => ?_, fits⟩, framed⟩
    obtain ⟨rfl, some⟩ := Option.filter_eq_some_iff.mp given
    exact ⟨by simpa using some, Attributes.flat_of_plain fit plain⟩

end Input

end Parley
