import Parley.Assoc
import Parley.Proofs.Outcome
import Parley.Proofs.Template.Atoms

/-!
What templates come to. The text of a template is that of its parts, one after the other, and two
templates that come to the same text whatever the variables are have the same parts: the first place
at which the parts differ shows in the text as soon as the variables there are told apart.
-/
namespace Parley

namespace Part

/-- Whether no literal is empty and none stands beside another. -/
def Tidy (parts : List Part) : Prop :=
  (∀ text, .literal text ∈ parts → text ≠ "") ∧
    parts.IsChain fun p q => p.isLiteral = false ∨ q.isLiteral = false

theorem normal_iff_tidy {parts : List Part} : Normal parts ↔ Tidy parts := by
  unfold Tidy
  induction parts with
  | nil => simp [Normal]
  | cons part rest ih =>
    rw [List.isChain_cons]
    cases part with
    | literal text => simp only [Normal, ih, List.mem_cons, literal.injEq, isLiteral]; grind
    | var name => simp [Normal, ih, isLiteral]

/-- Parts that have nothing to join stay as they are. -/
theorem normalize_of_normal {parts : List Part} (normal : Normal parts) : normalize parts = parts :=
  eq_of_atoms (normal_normalize parts) normal (atoms_normalize parts)

end Part

namespace Template

variable {lookup : String → Option Value}

/-- What parts come to, one after the other. -/
def partsText (lookup : String → Option Value) (parts : List Part) : Except Failure String :=
  (parts.mapM (partText lookup)).map String.join

theorem partsText_cons (part : Part) (rest : List Part) :
    partsText lookup (part :: rest) = do
      let first ← partText lookup part
      return first ++ (← partsText lookup rest) := by
  rw [partsText, List.mapM_cons, partsText]
  cases partText lookup part with
  | error e => rfl
  | ok first =>
    cases rest.mapM (partText lookup) with
    | error e => rfl
    | ok texts => exact congrArg Except.ok (String.join_cons ..)

theorem partsText_append (parts others : List Part) :
    partsText lookup (parts ++ others) = do
      let first ← partsText lookup parts
      return first ++ (← partsText lookup others) := by
  rw [partsText, List.mapM_append, partsText, partsText]
  cases parts.mapM (partText lookup) with
  | error e => rfl
  | ok texts =>
    cases others.mapM (partText lookup) with
    | error e => rfl
    | ok texts' => exact congrArg Except.ok String.join_append

/-- To join literals changes nothing in what parts come to. -/
theorem partsText_normalize (parts : List Part) :
    partsText lookup (Part.normalize parts) = partsText lookup parts := by
  fun_induction Part.normalize parts with
  | case1 => rfl
  | case2 name rest ih => rw [partsText_cons, partsText_cons, ih]
  | case3 rest ih =>
    rw [ih, partsText_cons]
    cases partsText lookup rest with
    | error e => rfl
    | ok text => exact congrArg Except.ok String.empty_append.symm
  | case4 text rest _ more others same ih =>
    rw [partsText_cons, partsText_cons, ← ih, same, partsText_cons]
    cases partsText lookup others with
    | error e => rfl
    | ok behind => exact congrArg Except.ok String.append_assoc
  | case5 text rest _ _ ih => rw [partsText_cons, partsText_cons, ih]

theorem evaluate_append (t u : Template) :
    (t ++ u).evaluate lookup = do
      let first ← t.evaluate lookup
      return first ++ (← u.evaluate lookup) :=
  (partsText_normalize (t.parts ++ u.parts)).trans (partsText_append t.parts u.parts)

theorem append_assoc (t u v : Template) : t ++ (u ++ v) = t ++ u ++ v := by
  apply eq_of_atoms
  simp only [atoms_append, List.append_assoc]

theorem empty_append (t : Template) : empty ++ t = t := by
  apply eq_of_atoms
  rw [atoms_append]
  rfl

theorem append_empty (t : Template) : t ++ empty = t := by
  apply eq_of_atoms
  rw [atoms_append]
  exact List.append_nil t.atoms

end Template

/-! Telling templates apart -/

/-- The characters that an atom comes to where some variables have texts. -/
def Atom.said (texts : List (String × String)) : Atom → List Char
  | .char c => [c]
  | .var name => ((Assoc.get? name texts).getD "null").toList

/-- The values of variables that have texts. -/
def textBindings (texts : List (String × String)) : Bindings :=
  texts.map fun entry => (entry.1, .text entry.2)

namespace Atom

theorem said_none_ne_nil (a : Atom) : a.said [] ≠ [] := by
  cases a <;> simp [said, Assoc.get?]

theorem exists_ne (c : Char) : ∃ d, c ≠ d := by
  by_cases same : c = 'a'
  · exact ⟨'b', by rw [same]; decide⟩
  · exact ⟨'a', same⟩

/-- A variable may have a text that does not start with a given character. -/
theorem exists_apart (c : Char) (name : String) (front behind : List (String × String) → List Char) :
    ∃ texts, (char c).said texts ++ front texts ≠ (var name).said texts ++ behind texts := by
  obtain ⟨d, other⟩ := exists_ne c
  refine ⟨[(name, String.singleton d)], fun same => other ?_⟩
  simp only [said, Assoc.get?, if_true, Option.getD_some, String.toList_singleton] at same
  exact (List.cons.inj same).1

/-- Atoms in front of texts that are the same whatever the variables are, are the same. -/
theorem eq_of_said {a b : Atom} {front behind : List (String × String) → List Char}
    (same : ∀ texts, a.said texts ++ front texts = b.said texts ++ behind texts) : a = b := by
  cases a with
  | char c =>
    cases b with
    | char d => exact congrArg char (List.cons.inj (same [])).1
    | var name =>
      obtain ⟨texts, apart⟩ := exists_apart c name front behind
      exact absurd (same texts) apart
  | var name =>
    cases b with
    | char d =>
      obtain ⟨texts, apart⟩ := exists_apart d name behind front
      exact absurd (same texts).symm apart
    | var other =>
      by_contra distinct
      have names : name ≠ other := fun eq => distinct (congrArg var eq)
      have both := same [(name, "a"), (other, "b")]
      simp [said, Assoc.get?, names] at both

/-- Rows of atoms that come to the same characters whatever the variables are, are the same. -/
theorem eq_of_flatMap_said {as bs : List Atom}
    (same : ∀ texts, as.flatMap (said texts) = bs.flatMap (said texts)) : as = bs := by
  induction as generalizing bs with
  | nil =>
    cases bs with
    | nil => rfl
    | cons b rest =>
      have none := same []
      rw [List.flatMap_cons] at none
      exact absurd (List.append_eq_nil_iff.mp none.symm).1 b.said_none_ne_nil
  | cons a rest ih =>
    cases bs with
    | nil =>
      have none := same []
      rw [List.flatMap_cons] at none
      exact absurd (List.append_eq_nil_iff.mp none).1 a.said_none_ne_nil
    | cons b rest' =>
      simp only [List.flatMap_cons] at same
      obtain rfl := eq_of_said same
      rw [ih fun texts => List.append_cancel_left (same texts)]

end Atom

namespace Template

theorem partText_said (texts : List (String × String)) (part : Part) :
    partText (Assoc.get? · (textBindings texts)) part =
      .ok (String.ofList (part.atoms.flatMap (Atom.said texts))) := by
  cases part with
  | literal text =>
    simp [partText, Part.atoms, Atom.said, List.flatMap_map]
  | var name =>
    have read : Assoc.get? name (textBindings texts) = (Assoc.get? name texts).map .text :=
      Assoc.get?_map Value.text name texts
    simp only [partText, read, Part.atoms, List.flatMap_singleton, Atom.said]
    cases Assoc.get? name texts with
    | none => rfl
    | some text => exact congrArg Except.ok String.ofList_toList.symm

/-- Where variables have texts, a template comes to the characters of its atoms. -/
theorem evaluate_said (texts : List (String × String)) (t : Template) :
    t.evaluate (Assoc.get? · (textBindings texts)) =
      .ok (String.ofList (t.atoms.flatMap (Atom.said texts))) := by
  change partsText _ t.parts = _
  rw [atoms]
  induction t.parts with
  | nil => rfl
  | cons part rest ih =>
    rw [partsText_cons, partText_said, ih, List.flatMap_cons, List.flatMap_append,
      String.ofList_append]
    rfl

theorem eq_of_evaluate {t u : Template}
    (same : ∀ b : Bindings, t.evaluate (Assoc.get? · b) = u.evaluate (Assoc.get? · b)) : t = u := by
  apply eq_of_atoms
  apply Atom.eq_of_flatMap_said
  intro texts
  have both := same (textBindings texts)
  rw [evaluate_said, evaluate_said] at both
  exact String.ofList_injective (Except.ok.inj both)

/-- Templates add up as their texts do. Whatever parts a template is made of, they are put into their
one tidy form, and two templates are the same exactly if they come to the same text, or fail alike,
for all variables. -/
theorem known_by_meaning (t u v : Template) (parts : List Part) :
    t ++ (u ++ v) = t ++ u ++ v ∧ empty ++ t = t ∧ t ++ empty = t ∧
    (∀ lookup, (t ++ u).evaluate lookup = do
      let first ← t.evaluate lookup
      return first ++ (← u.evaluate lookup)) ∧
    Part.Tidy (ofParts parts).parts ∧ ((ofParts parts).parts = parts ↔ Part.Tidy parts) ∧
    ofParts t.parts = t ∧
    (t = u ↔ ∀ b : Bindings, t.evaluate (Assoc.get? · b) = u.evaluate (Assoc.get? · b)) := by
  have tidy := Part.normal_iff_tidy.mp (ofParts parts).normal
  refine ⟨append_assoc t u v, empty_append t, append_empty t, fun lookup => evaluate_append t u,
    tidy, ⟨fun kept => ?_, fun tidy => ?_⟩, ?_, ?_⟩
  · rwa [kept] at tidy
  · exact Part.normalize_of_normal (Part.normal_iff_tidy.mpr tidy)
  · exact eq_of_atoms (atoms_ofParts t.parts)
  · exact ⟨fun same _ => by rw [same], eq_of_evaluate⟩

end Template

end Parley
