import Parley.Proofs.Body.Attributes
import Parley.Proofs.Number.Reading
import Parley.Proofs.Template.Firm

/-!
The values that commands ask their attributes for. Each is read from attributes in which it has been
written down.
-/
namespace Parley

namespace Template

/-- The template of one variable. -/
def single (name : String) : Template := ⟨[.var name], trivial⟩

theorem toScript_ofText (s : String) (quotation : Quotation) :
    (ofText s).toScript quotation = escapeText quotation s := by
  rw [toScript, parts_ofText]
  split
  · rename_i none
    rw [none]
    rfl
  · simp [partScript]

theorem toScript_single (name : String) (quotation : Quotation) :
    (single name).toScript quotation = "$" ++ name := by
  simp [toScript, single, partScript]

theorem quotable_ofText {s : String} (flat : ∀ c ∈ s.toList, isLineBreak c = false) :
    (ofText s).Quotable := by
  have atoms := atoms_ofText s
  refine ⟨⟨fun name member => ?_, ?_⟩, fun c member => ?_⟩
  · rw [atoms] at member
    simp at member
  · rw [atoms, List.isChain_map]
    exact List.Pairwise.isChain (List.pairwise_of_forall fun _ _ => trivial)
  · rw [atoms] at member
    obtain ⟨d, inside, same⟩ := List.mem_map.mp member
    cases same
    exact flat c inside

theorem quotable_single {name : String} (named : isName name.toList) : (single name).Quotable := by
  refine ⟨⟨fun other member => ?_, .singleton _⟩, fun c member => ?_⟩
  · cases List.mem_singleton.mp member
    exact named
  · cases List.mem_singleton.mp member

end Template

theorem escapeText_of_plain {s : String}
    (plain : ∀ c ∈ s.toList, Quotation.quoted.escapes c = false) : escapeText .quoted s = s := by
  have chars (cs : List Char) (afterSlash : Bool)
      (plain : ∀ c ∈ cs, Quotation.quoted.escapes c = false) :
      escapeChars .quoted afterSlash cs = cs := by
    induction cs generalizing afterSlash with
    | nil => rfl
    | cons c rest ih =>
      rw [escapeChars, ih _ fun d member => plain d (List.mem_cons_of_mem c member)]
      simp [plain c List.mem_cons_self]
  rw [escapeText, chars _ _ plain, String.ofList_toList]

namespace Attributes

variable {a : Attributes} {attributes : List (String × Template)} {name : String} {required : Bool}

theorem get?_of_lists (listed : Lists a.entries attributes) (name : String) :
    (a.get? name).map Attribute.value = Assoc.get? name attributes := by
  rw [← listed, Assoc.get?_map]
  rfl

theorem template_of_lists (listed : Lists a.entries attributes)
    (given : required → (Assoc.get? name attributes).isSome) :
    a.template name required = .ok (Assoc.get? name attributes) := by
  have found := get?_of_lists listed name
  unfold template
  cases here : a.get? name with
  | none =>
    rw [here] at found
    rw [← found] at given ⊢
    have optional : required = false := by
      rw [Bool.eq_false_iff]
      intro needed
      cases given needed
    simp [optional]
  | some x =>
    rw [here] at found
    rw [← found]
    rfl

theorem plain_of_lists (listed : Lists a.entries attributes) {text : Option String}
    (found : Assoc.get? name attributes = text.map Template.ofText)
    (given : required → text.isSome) : a.plain name required = .ok text := by
  have read : a.template name required = .ok (Assoc.get? name attributes) :=
    template_of_lists listed (by rw [found, Option.isSome_map]; exact given)
  rw [plain, read, found]
  cases text with
  | none => rfl
  | some s =>
    simp [Template.isPlain_ofText, Template.plainText_ofText]

theorem varName_of_lists (listed : Lists a.entries attributes) {target : String}
    (found : Assoc.get? name attributes = some (.single target)) :
    a.varName name required = .ok (some target) := by
  have read : a.template name required = .ok (Assoc.get? name attributes) :=
    template_of_lists listed (by rw [found]; exact fun _ => rfl)
  rw [varName, read, found]
  rfl

theorem boolean_of_lists (listed : Lists a.entries attributes) {value : Option Bool}
    (found : Assoc.get? name attributes =
      value.map fun b => Template.ofText (if b then "true" else "false")) :
    a.boolean name false = .ok value := by
  have read : a.plain name false = .ok (value.map fun b => if b then "true" else "false") :=
    plain_of_lists listed (by rw [found, Option.map_map]; rfl) nofun
  rw [boolean, read]
  have isTrue : lower "true" = "true" := by decide
  have isFalse : lower "false" = "false" := by decide
  cases value with
  | none => rfl
  | some b => cases b <;> simp [isTrue, isFalse]

/-- Whether a whole number has no more digits than are read. -/
def Short (n : Int) : Prop := (natChars n.natAbs).length ≤ maxDigits

theorem integer_of_lists (listed : Lists a.entries attributes) {value : Option Int}
    {least : Option Number} (found : Assoc.get? name attributes =
      value.map fun n => Template.ofText (intText n))
    (short : ∀ n ∈ value, Short n)
    (bounded : ∀ n ∈ value, ∀ bound ∈ least, (Number.whole n).value.order? bound.value ≠ some .lt) :
    a.integer name false least none = .ok value := by
  have read : a.plain name false = .ok (value.map intText) :=
    plain_of_lists listed (by rw [found, Option.map_map]; rfl) nofun
  rw [integer, read]
  cases value with
  | none => rfl
  | some n =>
    have numeral := Numeral.int_intText (short n rfl)
    cases least with
    | none => simp [numeral, checkBounds]
    | some bound =>
      have fits := bounded n rfl bound rfl
      simp [numeral, checkBounds, fits]

end Attributes

/-! Slots -/

/-- The attributes that are given of some that may be left out. -/
def present (slots : List (String × Option Template)) : List (String × Template) :=
  slots.filterMap fun (name, t) => t.map (name, ·)

theorem present_cons (name : String) (t : Option Template)
    (rest : List (String × Option Template)) :
    present ((name, t) :: rest) = (t.map (name, ·)).toList ++ present rest := by
  cases t <;> rfl

theorem mem_present {slots : List (String × Option Template)} {p : String × Template} :
    p ∈ present slots ↔ (p.1, some p.2) ∈ slots := by
  induction slots with
  | nil => simp [present]
  | cons slot rest ih =>
    obtain ⟨name, t⟩ := slot
    rw [present_cons, List.mem_append, ih, List.mem_cons]
    cases t with
    | none => simp
    | some u =>
      obtain ⟨key, v⟩ := p
      simp [Prod.ext_iff, eq_comm]

theorem keys_present_sublist (slots : List (String × Option Template)) :
    ((present slots).map (·.1)).Sublist (slots.map (·.1)) := by
  induction slots with
  | nil => exact .slnil
  | cons slot rest ih =>
    obtain ⟨name, t⟩ := slot
    rw [present_cons]
    cases t with
    | none => exact ih.cons name
    | some t => exact ih.cons_cons name

/-- A slot that is filled gives its attribute, one that is not gives none. -/
theorem get?_present {slots : List (String × Option Template)}
    (single : (slots.map (·.1)).Nodup) (name : String) :
    Assoc.get? name (present slots) = (Assoc.get? name slots).join := by
  induction slots with
  | nil => rfl
  | cons slot rest ih =>
    obtain ⟨key, t⟩ := slot
    obtain ⟨other, later⟩ := List.nodup_cons.mp single
    rw [present_cons, Assoc.get?]
    cases t with
    | none =>
      split
      · rename_i same
        subst same
        exact Assoc.get?_of_not_mem fun member => other ((keys_present_sublist rest).subset member)
      · exact ih later
    | some t =>
      rw [Option.map_some, Option.toList_some, List.singleton_append, Assoc.get?]
      split
      · rfl
      · exact ih later

/-- Attributes of filled slots are read again if the slots have names and the templates are fit. -/
theorem sound_present {slots : List (String × Option Template)}
    (named : ∀ p ∈ slots, isName p.1.toList) (single : (slots.map (·.1)).Nodup)
    (quotable : ∀ name t, (name, some t) ∈ slots → t.Quotable) :
    Attributes.Sound (present slots) := by
  refine ⟨fun p member => named _ (mem_present.mp member), fun p member => ?_,
    single.sublist (keys_present_sublist slots)⟩
  exact quotable p.1 p.2 (mem_present.mp member)

end Parley
