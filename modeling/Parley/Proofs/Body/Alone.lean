import Parley.Proofs.Body.Rejoined

/-!
Parts of replies that are read back by themselves. An action or a statement is read from its script
with its templates rejoined, so where it comes back as it was all its templates are separated, and it
is read wherever its script stands.
-/
namespace Parley

open Tokenizer

/-! Templates -/

namespace Atom

theorem char_of_mem_absorb {name : String} {as : List Atom} {c : Char}
    (member : .char c ∈ absorb name as) : .char c ∈ as := by
  fun_induction absorb name as with
  | case1 name d rest more ih => exact List.mem_cons_of_mem _ (ih member)
  | case2 | case3 => exact (List.mem_cons.mp member).resolve_left (by simp)

theorem char_of_mem_rejoin {as : List Atom} {c : Char} (member : .char c ∈ rejoin as) :
    .char c ∈ as := by
  induction as with
  | nil => exact member
  | cons a rest ih =>
    cases a with
    | char d =>
      rcases List.mem_cons.mp member with same | later
      · exact same ▸ List.mem_cons_self
      · exact List.mem_cons_of_mem _ (ih later)
    | var name => exact List.mem_cons_of_mem _ (ih (char_of_mem_absorb member))

theorem length_absorb_le (name : String) (as : List Atom) :
    (absorb name as).length ≤ as.length + 1 := by
  fun_induction absorb name as with
  | case1 name c rest more ih =>
    rw [List.length_cons]
    omega
  | case2 | case3 => exact Nat.le_refl _

theorem length_rejoin_le (as : List Atom) : (rejoin as).length ≤ as.length := by
  induction as with
  | nil => exact Nat.le_refl _
  | cons a rest ih =>
    cases a with
    | char c => exact Nat.succ_le_succ ih
    | var name => exact Nat.le_trans (length_absorb_le name _) (Nat.succ_le_succ ih)

theorem exists_var_absorb (name : String) (as : List Atom) :
    ∃ other, .var other ∈ absorb name as := by
  fun_induction absorb name as with
  | case1 name c rest more ih => exact ih
  | case2 name | case3 name => exact ⟨name, List.mem_cons_self⟩

theorem rejoin_eq_nil_iff {as : List Atom} : rejoin as = [] ↔ as = [] := by
  constructor
  · intro none
    cases as with
    | nil => rfl
    | cons a rest =>
      cases a with
      | char c => cases none
      | var name =>
        obtain ⟨other, member⟩ := exists_var_absorb name (rejoin rest)
        rw [rejoin] at none
        rw [none] at member
        cases member
  · rintro rfl
    rfl

theorem isChar_of_rejoin {as : List Atom} (chars : ∀ a ∈ rejoin as, a.isChar) :
    ∀ a ∈ as, a.isChar := by
  induction as with
  | nil => exact chars
  | cons a rest ih =>
    cases a with
    | char c =>
      have later := ih fun b member => chars b (List.mem_cons_of_mem _ member)
      exact List.forall_mem_cons.mpr ⟨rfl, later⟩
    | var name =>
      obtain ⟨other, member⟩ := exists_var_absorb name (rejoin rest)
      cases chars (.var other) member

end Atom

namespace Template

theorem separated_of_map {ts : List Template} (same : ts.map rejoined = ts) :
    ∀ t ∈ ts, t.Separated := by
  intro t member
  have each := List.map_inj_left.mp (same.trans (List.map_id ts).symm)
  exact rejoined_eq_iff.mp (each t member)

theorem quotable_rejoined {t : Template} (framed : t.Framed) : t.rejoined.Quotable := by
  refine ⟨readable_rejoined framed.named, fun c member => framed.flat c ?_⟩
  rw [rejoined, atoms_ofAtoms] at member
  exact Atom.char_of_mem_rejoin member

/-- Nothing changes where there are no variables. -/
theorem rejoined_of_plain {t : Template} (plain : t.isPlain) : t.rejoined = t := by
  rw [rejoined_eq_iff, separated_iff, atoms_of_isPlain plain]
  refine List.Pairwise.isChain (List.pairwise_map.mpr ?_)
  exact List.pairwise_of_forall_mem_list fun _ _ _ _ => trivial

theorem not_plain_rejoined {t : Template} (some : t.isPlain = false) :
    t.rejoined.isPlain = false := by
  rw [Bool.eq_false_iff, Ne, isPlain_iff] at some ⊢
  intro chars
  rw [rejoined, atoms_ofAtoms] at chars
  exact some (Atom.isChar_of_rejoin chars)

end Template

/-! Actions -/

namespace Action

variable {a : Action}

def rejoined (a : Action) : Action :=
  { a with
    value := a.value.rejoined
    parameters := a.parameters.map fun (name, t) => (name, t.rejoined) }

theorem toScript_rejoined (a : Action) : a.rejoined.toScript = a.toScript := by
  have each : (parameterText ∘ fun p : String × Template => (p.1, p.2.rejoined)) = parameterText := by
    funext p
    simp [parameterText, Template.toScript_rejoined]
  simp only [toScript, rejoined, Template.toScript_rejoined, List.map_map, each]

theorem templates_rejoined (a : Action) :
    a.rejoined.templates = a.templates.map Template.rejoined := by
  simp [templates, rejoined]

theorem sound_rejoined (fits : a.Fits) (framed : ∀ t ∈ a.templates, t.Framed) :
    a.rejoined.Sound := by
  have keys : a.rejoined.parameters.map (·.1) = a.parameters.map (·.1) := by simp [rejoined]
  have named (holds : String → Prop) (each : ∀ p ∈ a.parameters, holds p.1) :
      ∀ p ∈ a.rejoined.parameters, holds p.1 := by
    intro p member
    obtain ⟨q, inside, rfl⟩ := List.mem_map.mp member
    exact each q inside
  have letters := named (fun name => isName name.toList) fits.named
  have fresh := named (fun name => name ≠ "type" ∧ name ≠ "value") fits.fresh
  refine ⟨⟨letters, keys ▸ fits.single, fresh⟩, fun t member => ?_⟩
  rw [templates_rejoined] at member
  obtain ⟨u, inside, rfl⟩ := List.mem_map.mp member
  exact Template.quotable_rejoined (framed u inside)

end Action

/-! Inputs -/

namespace Field

def rejoined : Field → Field
  | choices options => choices (options.map fun o => { o with label := o.label.rejoined })
  | time target granularity ⟨start, least, most⟩ =>
      time target granularity
        ⟨start.map Template.rejoined, least.map Template.rejoined, most.map Template.rejoined⟩
  | field => field

theorem templates_rejoined (field : Field) :
    field.rejoined.templates = field.templates.map Template.rejoined := by
  cases field with
  | choices options => simp [rejoined, templates]
  | time target granularity times =>
    obtain ⟨start, least, most⟩ := times
    cases start <;> cases least <;> cases most <;>
      simp [rejoined, templates, ClockTimes.templates, ClockTimes.entries]
  | _ => rfl

theorem isTime_rejoined {t : Template} (isTime : IsTime t) : IsTime t.rejoined := by
  rcases isTime with open_ | ⟨s, rfl, normal⟩
  · exact .inl (Template.not_plain_rejoined open_)
  · have plain : (Template.ofText s).isPlain := by
      rw [Template.isPlain_iff, Template.atoms_ofText]
      intro a member
      obtain ⟨c, _, rfl⟩ := List.mem_map.mp member
      rfl
    exact .inr ⟨s, Template.rejoined_of_plain plain, normal⟩

theorem fits_rejoined {field : Field} (fits : field.Fits) : field.rejoined.Fits := by
  cases field with
  | choices options =>
    intro o member
    obtain ⟨p, inside, rfl⟩ := List.mem_map.mp member
    exact fits p inside
  | time target granularity times =>
    obtain ⟨named, positive, short, isTime⟩ := fits
    refine ⟨named, positive, short, fun t member => ?_⟩
    have all := templates_rejoined (.time target granularity times)
    have member : t ∈ (Field.time target granularity times).rejoined.templates := member
    rw [all] at member
    obtain ⟨u, inside, rfl⟩ := List.mem_map.mp member
    exact isTime_rejoined (isTime u inside)
  | _ => exact fits

theorem choicesText_rejoined (number : Nat) (options : List Choice) :
    Input.choicesText number (options.map fun o => { o with label := o.label.rejoined }) =
      Input.choicesText number options := by
  induction options generalizing number with
  | nil => rfl
  | cons o rest ih =>
    simp only [List.map_cons, Input.choicesText, Template.toScript_rejoined, ih]

theorem text_rejoined (field : Field) : Input.fieldText field.rejoined = Input.fieldText field := by
  cases field with
  | choices options => exact choicesText_rejoined 1 options
  | time target granularity times =>
    obtain ⟨start, least, most⟩ := times
    cases start <;> cases least <;> cases most <;>
      simp [rejoined, Input.fieldText, ClockTimes.entries, Template.toScript_rejoined]
  | _ => rfl

theorem typeName_rejoined (field : Field) : field.rejoined.typeName = field.typeName := by
  cases field <;> rfl

end Field

namespace Input

variable {i : Input}

def rejoined (i : Input) : Input := { i with field := i.field.rejoined }

theorem toScript_rejoined (i : Input) : i.rejoined.toScript = i.toScript := by
  simp only [toScript, rejoined, Field.typeName_rejoined, Field.text_rejoined]

theorem sound_rejoined (fits : i.Fits) (framed : ∀ t ∈ i.templates, t.Framed) :
    i.rejoined.Sound := by
  refine ⟨⟨fits.description, Field.fits_rejoined fits.field⟩, fun t member => ?_⟩
  have member : t ∈ i.field.rejoined.templates := member
  rw [Field.templates_rejoined] at member
  obtain ⟨u, inside, rfl⟩ := List.mem_map.mp member
  exact Template.quotable_rejoined (framed u inside)

theorem separated_of_rejoined (same : i.rejoined = i) : ∀ t ∈ i.templates, t.Separated := by
  have each := congrArg templates same
  have all : i.rejoined.templates = i.templates.map Template.rejoined :=
    Field.templates_rejoined i.field
  rw [all] at each
  exact Template.separated_of_map each

end Input

/-! Statements -/

namespace Segment

def rejoined : Segment Input → Segment Input
  | .text t => .text t.rejoined
  | .command i => .command i.rejoined

variable {segments : List (Segment Input)}

theorem isText_rejoined (s : Segment Input) : s.rejoined.isText = s.isText := by
  cases s <;> rfl

theorem isEmpty_rejoined {t : Template} (some : t.isEmpty = false) :
    t.rejoined.isEmpty = false := by
  rw [Bool.eq_false_iff, Ne, Template.isEmpty_iff] at some ⊢
  rw [Template.rejoined, Template.atoms_ofAtoms, Atom.rejoin_eq_nil_iff]
  exact some

theorem merged_rejoined (merged : Merged segments) : Merged (segments.map rejoined) := by
  induction segments with
  | nil => trivial
  | cons s rest ih =>
    cases s with
    | command i => exact ih merged
    | text t =>
      obtain ⟨some, stop, later⟩ := merged
      refine ⟨isEmpty_rejoined some, fun u head => ?_, ih later⟩
      rw [List.head?_map] at head
      obtain ⟨v, first, rfl⟩ := Option.map_eq_some_iff.mp head
      rw [isText_rejoined]
      exact stop v first

theorem length_atoms_rejoined (segments : List (Segment Input)) :
    (atoms (segments.map rejoined)).length ≤ (atoms segments).length := by
  induction segments with
  | nil => exact Nat.le_refl _
  | cons s rest ih =>
    cases s with
    | command i => exact Nat.succ_le_succ ih
    | text t =>
      have here := Atom.length_rejoin_le t.atoms
      simp only [List.map_cons, rejoined, atoms, List.length_append, List.length_map,
        Template.rejoined, Template.atoms_ofAtoms]
      omega

/-- What is trimmed to the segments that it is rejoined from is not trimmed at all. -/
theorem rejoined_of_trim (merged : Merged segments)
    (trimmed : trim (segments.map rejoined) = segments) : segments.map rejoined = segments := by
  have cut := atoms_trim (segments.map rejoined)
  rw [trimmed] at cut
  have part : (atoms segments).Sublist (atoms (segments.map rejoined)) := by
    rw [cut]
    exact (List.rdropWhile_prefix _ _).sublist.trans (List.dropWhile_suffix _).sublist
  have same : atoms segments = atoms (segments.map rejoined) :=
    part.eq_of_length_le (length_atoms_rejoined segments)
  exact (eq_of_atoms merged (merged_rejoined merged) same).symm

theorem statementScript_rejoined (segments : List (Segment Input)) :
    statementScript (segments.map rejoined) = statementScript segments := by
  induction segments with
  | nil => rfl
  | cons s rest ih =>
    cases s with
    | text t =>
      simp only [List.map_cons, rejoined, statementScript, Template.toScript_rejoined, ih]
    | command i =>
      simp only [List.map_cons, rejoined, statementScript, Input.toScript_rejoined, ih]

end Segment

end Parley
