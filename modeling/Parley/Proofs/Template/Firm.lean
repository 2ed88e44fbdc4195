import Parley.Proofs.Outcome
import Parley.Proofs.Template.Atoms

/-!
Text that nothing is left to do for. Settling a template gives plain text, which settling gives back
whatever the variables are; trimming segments gives segments that are firm at both ends, which
trimming gives back, whether or not there are empty texts between them.
-/
namespace Parley

namespace Template

theorem isPlain_iff {t : Template} : t.isPlain ↔ ∀ a ∈ t.atoms, a.isChar := by
  unfold isPlain atoms
  rw [List.all_eq_true]
  constructor
  · intro plain a member
    obtain ⟨part, inside, here⟩ := List.mem_flatMap.mp member
    have each := plain part inside
    cases part with
    | literal text => exact Part.isChar_of_mem_atoms a here
    | var name => cases each
  · intro chars part inside
    cases part with
    | literal text => rfl
    | var name =>
      exact chars (.var name) (List.mem_flatMap.mpr ⟨_, inside, List.mem_singleton_self _⟩)

/-- A template without variables is known by its text. -/
theorem atoms_of_isPlain {t : Template} (plain : t.isPlain) :
    t.atoms = t.plainText.toList.map .char := by
  unfold isPlain at plain
  unfold atoms plainText
  generalize t.parts = parts at plain
  induction parts with
  | nil => rfl
  | cons part rest ih =>
    rw [List.all_cons, Bool.and_eq_true] at plain
    cases part with
    | literal text =>
      rw [List.flatMap_cons, ih plain.2, List.map_cons, String.join_cons, String.toList_append,
        List.map_append]
      rfl
    | var name => cases plain.1

theorem isPlain_append {t u : Template} (plain : t.isPlain) (plain' : u.isPlain) :
    (t ++ u).isPlain := by
  rw [isPlain_iff] at plain plain' ⊢
  rw [atoms_append]
  intro a member
  rcases List.mem_append.mp member with first | second
  · exact plain a first
  · exact plain' a second

theorem isPlain_trimStart {t : Template} (plain : t.isPlain) : t.trimStart.isPlain := by
  rw [isPlain_iff] at plain ⊢
  rw [atoms_trimStart]
  exact fun a member => plain a ((List.dropWhile_suffix _).subset member)

theorem isPlain_trimEnd {t : Template} (plain : t.isPlain) : t.trimEnd.isPlain := by
  rw [isPlain_iff] at plain ⊢
  rw [atoms_trimEnd]
  exact fun a member => plain a ((List.rdropWhile_prefix _ _).subset member)

theorem parts_ofText (s : String) :
    (ofText s).parts = if s = "" then [] else [.literal s] := by
  change Part.normalize _ = _
  unfold Part.normalize
  split
  · rfl
  · rfl

theorem isPlain_ofText (s : String) : (ofText s).isPlain = true := by
  rw [isPlain, parts_ofText]
  split <;> rfl

theorem plainText_ofText (s : String) : (ofText s).plainText = s := by
  rw [plainText, parts_ofText]
  split
  · rename_i none
    rw [none]
    rfl
  · simp

theorem evaluate_ofText (s : String) (lookup : String → Option Value) :
    (ofText s).evaluate lookup = .ok s := by
  rw [evaluate, parts_ofText]
  split
  · rename_i none
    rw [none]
    rfl
  · exact congrArg Except.ok (String.empty_append)

/-- What a template comes to is plain. -/
theorem isPlain_of_resolve {t u : Template} {lookup : String → Option Value}
    (settled : t.resolve lookup = .ok u) : u.isPlain := by
  obtain ⟨text, _, rfl⟩ := map_eq_ok_iff.mp settled
  exact isPlain_ofText text

/-- Plain text comes to itself. -/
theorem resolve_of_isPlain {t : Template} (plain : t.isPlain) (lookup : String → Option Value) :
    t.resolve lookup = .ok t := by
  have same : t = ofText t.plainText := by
    apply eq_of_atoms
    rw [atoms_ofText, atoms_of_isPlain plain]
  rw [same, resolve, evaluate_ofText]
  rfl

end Template

namespace Segment

variable {κ : Type}

section End

variable {segments : List (Segment κ)} {shorten : Template → Template}

/-- The text that is left in front has something in it, and shortening it changes no more. -/
theorem head_trimBy (again : ∀ t, shorten (shorten t) = shorten t) {t : Template}
    (first : (trimBy shorten segments).head? = some (.text t)) :
    t.isEmpty = false ∧ shorten t = t := by
  fun_induction trimBy shorten segments with
  | case1 u rest empty ih => exact ih first
  | case2 u rest some =>
    cases first
    exact ⟨Bool.eq_false_iff.mpr some, again u⟩
  | case3 segments other =>
    obtain ⟨rest, rfl⟩ := List.head?_eq_some_iff.mp first
    exact (other t rest rfl).elim

theorem trimBy_of_head
    (kept : ∀ t, segments.head? = some (.text t) → t.isEmpty = false ∧ shorten t = t) :
    trimBy shorten segments = segments := by
  cases segments with
  | nil => rfl
  | cons s rest =>
    cases s with
    | command c => rfl
    | text t =>
      obtain ⟨filled, same⟩ := kept t rfl
      simp [trimBy, same, filled]

end End

/-- Whether segments do not start with text that trimming would change. -/
def Firm (segments : List (Segment κ)) : Prop :=
  ∀ t, segments.head? = some (.text t) → t.isEmpty = false ∧ t.trimStart = t

theorem Firm.of_append {segments others : List (Segment κ)} (firm : Firm (segments ++ others)) :
    Firm segments := by
  intro t first
  apply firm t
  rw [List.head?_append, first]
  rfl

theorem trimStart_of_firm {segments : List (Segment κ)} (firm : Firm segments) :
    trimStart segments = segments := by
  rw [trimStart_eq, trimBy_of_head firm]

theorem firm_trimStart (segments : List (Segment κ)) : Firm (trimStart segments) := by
  rw [trimStart_eq]
  exact fun t => head_trimBy Template.trimStart_trimStart

theorem firm_trimEndReversed {segments : List (Segment κ)} (firm : Firm segments.reverse) :
    Firm (trimEndReversed segments).reverse := by
  fun_induction trimEndReversed segments with
  | case1 t rest trimmed empty ih =>
    rw [List.reverse_cons] at firm
    exact ih firm.of_append
  | case2 t rest trimmed some =>
    rw [List.reverse_cons] at firm ⊢
    cases front : rest.reverse with
    | nil =>
      intro u first
      cases first
      rw [front] at firm
      refine ⟨by simpa using some, ?_⟩
      rw [← Template.trimEnd_trimStart, (firm t rfl).2]
    | cons s more =>
      rw [front] at firm
      exact firm
  | case3 segments other => exact firm

theorem trimEndReversed_trimEndReversed (segments : List (Segment κ)) :
    trimEndReversed (trimEndReversed segments) = trimEndReversed segments := by
  rw [trimEndReversed_eq, trimEndReversed_eq]
  exact trimBy_of_head fun t => head_trimBy Template.trimEnd_trimEnd

theorem firm_trim (segments : List (Segment κ)) : Firm (trim segments) := by
  apply firm_trimEndReversed
  rw [List.reverse_reverse]
  exact firm_trimStart segments

/-- Segments that have been trimmed stay as they are. -/
theorem trim_idempotent (segments : List (Segment κ)) : trim (trim segments) = trim segments := by
  rw [trim, trimStart_of_firm (firm_trim segments), trim, List.reverse_reverse,
    trimEndReversed_trimEndReversed]

end Segment
end Parley
