import Mathlib.Data.List.Chain
import Mathlib.Data.List.DropRight
import Parley.Body.Segment
import Parley.Proofs.Text.Span

/-!
Templates and runs of segments as rows of atoms: characters, variables and commands. A template is
known by its atoms, and so is a run of segments in which all text that can be joined is joined.
-/
namespace Parley

inductive Atom where
  | char (c : Char)
  | var (name : String)
  deriving DecidableEq

namespace Atom

def isChar : Atom → Bool
  | char _ => true
  | var _ => false

def isBlank : Atom → Bool
  | char c => Parley.isBlank c
  | var _ => false

end Atom

namespace Part

def atoms : Part → List Atom
  | literal text => text.toList.map .char
  | var name => [.var name]

theorem atoms_normalize (parts : List Part) :
    (normalize parts).flatMap atoms = parts.flatMap atoms := by
  fun_induction normalize parts with
  | case1 => rfl
  | case2 name rest ih => simp [ih]
  | case3 rest ih => simpa [atoms] using ih
  | case4 text rest _ more others same ih =>
    rw [same] at ih
    simp [atoms, ← ih]
  | case5 text rest _ _ ih => simp [ih]

theorem head_atoms {parts : List Part} (first : ∀ part ∈ parts.head?, part.isLiteral = false) :
    ∀ a ∈ (parts.flatMap atoms).head?, a.isChar = false := by
  cases parts with
  | nil => simp
  | cons part rest =>
    cases part with
    | literal text => cases first _ rfl
    | var name =>
      intro a head
      cases head
      rfl

theorem isChar_of_mem_atoms {text : String} : ∀ a ∈ atoms (literal text), a.isChar := by
  intro a member
  obtain ⟨c, _, rfl⟩ := List.mem_map.mp member
  rfl

theorem atoms_literal_inj {text other : String}
    (same : atoms (literal text) = atoms (literal other)) : text = other := by
  have injective : ∀ c d : Char, Atom.char c = .char d → c = d := fun _ _ eq => Atom.char.inj eq
  exact String.toList_inj.mp ((List.map_inj_right injective).mp same)

theorem atoms_literal_ne_nil {text : String} (some : text ≠ "") : atoms (literal text) ≠ [] := by
  intro none
  rw [atoms, List.map_eq_nil_iff, String.toList_eq_nil_iff] at none
  exact some none

theorem eq_of_atoms {parts others : List Part} (normal : Normal parts) (normal' : Normal others)
    (same : parts.flatMap atoms = others.flatMap atoms) : parts = others := by
  induction parts generalizing others with
  | nil =>
    cases others with
    | nil => rfl
    | cons part rest =>
      cases part with
      | literal text =>
        have none := List.append_eq_nil_iff.mp same.symm
        exact (atoms_literal_ne_nil normal'.1 none.1).elim
      | var name => cases same
  | cons part rest ih =>
    cases part with
    | literal text =>
      obtain ⟨some, stop, later⟩ := normal
      cases others with
      | nil =>
        have none := List.append_eq_nil_iff.mp same
        exact (atoms_literal_ne_nil some none.1).elim
      | cons part' rest' =>
        cases part' with
        | literal text' =>
          obtain ⟨_, stop', later'⟩ := normal'
          obtain ⟨first, behind⟩ := append_inj_of_stop isChar_of_mem_atoms isChar_of_mem_atoms
            (head_atoms stop) (head_atoms stop') same
          rw [atoms_literal_inj first, ih later later' behind]
        | var name =>
          cases chars : atoms (literal text) with
          | nil => exact (atoms_literal_ne_nil some chars).elim
          | cons a more =>
            have char := isChar_of_mem_atoms a (chars ▸ List.mem_cons_self)
            rw [List.flatMap_cons, chars] at same
            rw [(List.cons.inj same).1] at char
            cases char
    | var name =>
      cases others with
      | nil => cases same
      | cons part' rest' =>
        cases part' with
        | literal text' =>
          cases chars : atoms (literal text') with
          | nil => exact (atoms_literal_ne_nil normal'.1 chars).elim
          | cons a more =>
            have char := isChar_of_mem_atoms a (chars ▸ List.mem_cons_self)
            rw [List.flatMap_cons, List.flatMap_cons, chars] at same
            rw [← (List.cons.inj same).1] at char
            cases char
        | var name' =>
          obtain ⟨first, behind⟩ := List.cons.inj same
          cases first
          have inside : Normal rest' := normal'
          have later : rest.flatMap atoms = rest'.flatMap atoms := behind
          rw [ih normal inside later]

end Part

namespace Template

def atoms (t : Template) : List Atom := t.parts.flatMap Part.atoms

/-- A template is known by its atoms. -/
theorem eq_of_atoms {t u : Template} (same : t.atoms = u.atoms) : t = u := by
  have parts := Part.eq_of_atoms t.normal u.normal same
  cases t
  cases u
  cases parts
  rfl

theorem atoms_ofParts (parts : List Part) : (ofParts parts).atoms = parts.flatMap Part.atoms :=
  Part.atoms_normalize parts

theorem atoms_ofText (text : String) : (ofText text).atoms = text.toList.map .char := by
  rw [ofText, atoms_ofParts]
  simp [Part.atoms]

theorem atoms_append (t u : Template) : (t ++ u).atoms = t.atoms ++ u.atoms := by
  change (append t u).atoms = _
  rw [append, atoms_ofParts, List.flatMap_append]
  rfl

theorem isEmpty_iff {t : Template} : t.isEmpty ↔ t.atoms = [] := by
  constructor
  · intro empty
    rw [atoms, List.isEmpty_iff.mp empty]
    rfl
  · intro none
    have same : t = .empty := eq_of_atoms none
    rw [same]
    rfl

end Template

namespace Template

theorem isBlank_iff {t : Template} : t.isBlank ↔ ∀ a ∈ t.atoms, a.isBlank := by
  unfold isBlank atoms
  rw [List.all_eq_true]
  constructor
  · intro blank a member
    obtain ⟨part, inside, here⟩ := List.mem_flatMap.mp member
    have each := blank part inside
    cases part with
    | literal text =>
      obtain ⟨c, char, rfl⟩ := List.mem_map.mp here
      exact List.all_eq_true.mp each c char
    | var name => cases each
  · intro blank part inside
    cases part with
    | literal text =>
      refine List.all_eq_true.mpr fun c char => ?_
      have member : Atom.char c ∈ (Part.literal text).atoms := List.mem_map.mpr ⟨c, char, rfl⟩
      exact blank (.char c) (List.mem_flatMap.mpr ⟨_, inside, member⟩)
    | var name =>
      exact blank (.var name) (List.mem_flatMap.mpr ⟨_, inside, List.mem_singleton_self _⟩)

theorem isBlank_append (t u : Template) : (t ++ u).isBlank = (t.isBlank && u.isBlank) := by
  rw [Bool.eq_iff_iff, Bool.and_eq_true, isBlank_iff, isBlank_iff, isBlank_iff, atoms_append]
  simp [or_imp, forall_and]

end Template

/-! Trimming -/

theorem dropWhile_chars (cs : List Char) :
    (cs.map Atom.char).dropWhile Atom.isBlank = (cs.dropWhile isBlank).map .char := by
  rw [List.dropWhile_map]
  rfl

theorem dropWhile_append_nil {α : Type} {p : α → Bool} {xs ys : List α}
    (none : xs.dropWhile p = []) : (xs ++ ys).dropWhile p = ys.dropWhile p := by
  rw [List.dropWhile_append, none]
  rfl

theorem dropWhile_append_some {α : Type} {p : α → Bool} {xs ys : List α}
    (some : xs.dropWhile p ≠ []) : (xs ++ ys).dropWhile p = xs.dropWhile p ++ ys := by
  rw [List.dropWhile_append, if_neg (by simpa using some)]

theorem takeWhile_append_some {α : Type} {p : α → Bool} {xs ys : List α}
    (some : xs.dropWhile p ≠ []) : (xs ++ ys).takeWhile p = xs.takeWhile p := by
  have shorter : (xs.takeWhile p).length ≠ xs.length := by
    have whole := congrArg List.length (List.takeWhile_append_dropWhile (p := p) (l := xs))
    have left := List.length_pos_of_ne_nil some
    rw [List.length_append] at whole
    omega
  rw [List.takeWhile_append, if_neg shorter]

theorem rdropWhile_chars (cs : List Char) :
    (cs.map Atom.char).rdropWhile Atom.isBlank = (cs.rdropWhile isBlank).map .char := by
  rw [List.rdropWhile, ← List.map_reverse, dropWhile_chars, ← List.map_reverse]
  rfl

theorem rdropWhile_append_nil {α : Type} {p : α → Bool} {xs ys : List α}
    (none : ys.rdropWhile p = []) : (xs ++ ys).rdropWhile p = xs.rdropWhile p := by
  rw [List.rdropWhile, List.reverse_append, dropWhile_append_nil (List.reverse_eq_nil_iff.mp none)]
  rfl

theorem rdropWhile_append_some {α : Type} {p : α → Bool} {xs ys : List α}
    (some : ys.rdropWhile p ≠ []) : (xs ++ ys).rdropWhile p = xs ++ ys.rdropWhile p := by
  have left : ys.reverse.dropWhile p ≠ [] := fun none => some (List.reverse_eq_nil_iff.mpr none)
  rw [List.rdropWhile, List.reverse_append, dropWhile_append_some left, List.reverse_append,
    List.reverse_reverse]
  rfl

/-- What is dropped from the end does not bare a start that has nothing to drop. -/
theorem dropWhile_rdropWhile_of_kept {α : Type} {p : α → Bool} {xs : List α}
    (kept : xs.dropWhile p = xs) : (xs.rdropWhile p).dropWhile p = xs.rdropWhile p := by
  rw [List.dropWhile_eq_self_iff] at kept ⊢
  intro some
  rw [(List.rdropWhile_prefix p xs).getElem some]
  exact kept _

theorem rdropWhile_dropWhile {α : Type} {p : α → Bool} (xs : List α) :
    (xs.dropWhile p).rdropWhile p = (xs.rdropWhile p).dropWhile p := by
  by_cases none : xs.dropWhile p = []
  · have all := List.dropWhile_eq_nil_iff.mp none
    rw [none, List.rdropWhile_eq_nil_iff.mpr all]
    rfl
  · have some : (xs.dropWhile p).rdropWhile p ≠ [] := by
      rw [Ne, List.rdropWhile_eq_nil_iff, ← List.dropWhile_eq_nil_iff, List.dropWhile_idempotent]
      exact none
    have front : ∀ x ∈ xs.takeWhile p, p x := fun x member =>
      List.all_eq_true.mp List.all_takeWhile x member
    have whole : (xs.takeWhile p ++ xs.dropWhile p).rdropWhile p =
        xs.takeWhile p ++ (xs.dropWhile p).rdropWhile p := rdropWhile_append_some some
    rw [List.takeWhile_append_dropWhile] at whole
    rw [whole, List.dropWhile_append_of_pos front]
    exact (dropWhile_rdropWhile_of_kept (List.dropWhile_idempotent _ _)).symm

/-- What surrounds a list is dropped with what it starts and ends with of the same class. -/
theorem dropWhile_padded {α : Type} {p : α → Bool} {front xs back : List α}
    (first : ∀ a ∈ front, p a)
    (last : ∀ a ∈ back, p a) :
    ((front ++ (xs ++ back)).dropWhile p).rdropWhile p = (xs.dropWhile p).rdropWhile p := by
  rw [dropWhile_append_nil (List.dropWhile_eq_nil_iff.mpr first)]
  by_cases none : xs.dropWhile p = []
  · rw [dropWhile_append_nil none, none, List.dropWhile_eq_nil_iff.mpr last]
  · rw [dropWhile_append_some none, rdropWhile_append_nil (List.rdropWhile_eq_nil_iff.mpr last)]

theorem dropWhile_dropped {α : Type} {p : α → Bool} (xs : List α) :
    ((((xs.dropWhile p).rdropWhile p).dropWhile p).rdropWhile p) =
    (xs.dropWhile p).rdropWhile p := by
  rw [← rdropWhile_dropWhile, List.dropWhile_idempotent, List.rdropWhile_idempotent]

namespace Template

theorem atoms_trimStart (t : Template) : t.trimStart.atoms = t.atoms.dropWhile Atom.isBlank := by
  have parts (ps : List Part) : (trimStartParts ps).flatMap Part.atoms =
      (ps.flatMap Part.atoms).dropWhile Atom.isBlank := by
    fun_induction trimStartParts ps with
    | case1 text rest trimmed empty ih =>
      have none : (text.toList.map Atom.char).dropWhile Atom.isBlank = [] := by
        rw [dropWhile_chars, List.map_eq_nil_iff]
        exact String.ofList_eq_empty_iff.mp empty
      rw [ih, List.flatMap_cons, Part.atoms, dropWhile_append_nil none]
    | case2 text rest trimmed some =>
      have left : (text.toList.map Atom.char).dropWhile Atom.isBlank ≠ [] := by
        rw [dropWhile_chars, Ne, List.map_eq_nil_iff]
        exact fun none => some (String.ofList_eq_empty_iff.mpr none)
      have kept : trimmed.toList = text.toList.dropWhile Parley.isBlank := String.toList_ofList
      rw [List.flatMap_cons, List.flatMap_cons, Part.atoms, Part.atoms, dropWhile_append_some left,
        dropWhile_chars, kept]
    | case3 ps other =>
      cases ps with
      | nil => rfl
      | cons part rest =>
        cases part with
        | literal text => exact (other text rest rfl).elim
        | var name => rfl
  rw [trimStart, atoms_ofParts, parts]
  rfl

theorem atoms_trimEnd (t : Template) : t.trimEnd.atoms = t.atoms.rdropWhile Atom.isBlank := by
  have parts (ps : List Part) : (trimEndReversed ps).reverse.flatMap Part.atoms =
      (ps.reverse.flatMap Part.atoms).rdropWhile Atom.isBlank := by
    fun_induction trimEndReversed ps with
    | case1 text rest trimmed empty ih =>
      have none : (text.toList.map Atom.char).rdropWhile Atom.isBlank = [] := by
        rw [rdropWhile_chars, List.map_eq_nil_iff]
        exact String.ofList_eq_empty_iff.mp empty
      rw [ih, List.reverse_cons, List.flatMap_append, List.flatMap_singleton, Part.atoms,
        rdropWhile_append_nil none]
    | case2 text rest trimmed some =>
      have left : (text.toList.map Atom.char).rdropWhile Atom.isBlank ≠ [] := by
        rw [rdropWhile_chars, Ne, List.map_eq_nil_iff]
        exact fun none => some (String.ofList_eq_empty_iff.mpr none)
      have kept : trimmed.toList = text.toList.rdropWhile Parley.isBlank := String.toList_ofList
      rw [List.reverse_cons, List.flatMap_append, List.flatMap_singleton, List.reverse_cons,
        List.flatMap_append, List.flatMap_singleton, Part.atoms, Part.atoms,
        rdropWhile_append_some left, rdropWhile_chars, kept]
    | case3 ps other =>
      cases ps with
      | nil => rfl
      | cons part rest =>
        cases part with
        | literal text => exact (other text rest rfl).elim
        | var name => simp [Part.atoms, Atom.isBlank]
  rw [trimEnd, atoms_ofParts, parts, List.reverse_reverse]
  rfl

theorem trimStart_trimStart (t : Template) : t.trimStart.trimStart = t.trimStart := by
  apply eq_of_atoms
  rw [atoms_trimStart, atoms_trimStart, List.dropWhile_idempotent]

theorem trimEnd_trimEnd (t : Template) : t.trimEnd.trimEnd = t.trimEnd := by
  apply eq_of_atoms
  rw [atoms_trimEnd, atoms_trimEnd, List.rdropWhile_idempotent]

theorem trimEnd_trimStart (t : Template) : t.trimStart.trimEnd = t.trimEnd.trimStart := by
  apply eq_of_atoms
  rw [atoms_trimEnd, atoms_trimStart, atoms_trimStart, atoms_trimEnd, rdropWhile_dropWhile]

end Template

/-! Segments -/

namespace Segment

variable {κ : Type}

def isText : Segment κ → Bool
  | text _ => true
  | command _ => false

def atoms : List (Segment κ) → List (Atom ⊕ κ)
  | [] => []
  | .text t :: rest => t.atoms.map .inl ++ atoms rest
  | .command c :: rest => .inr c :: atoms rest

/-- Whether no text is empty and none stands beside other text. -/
def Merged : List (Segment κ) → Prop
  | [] => True
  | .command _ :: rest => Merged rest
  | .text t :: rest => t.isEmpty = false ∧ (∀ s ∈ rest.head?, s.isText = false) ∧ Merged rest

theorem atoms_append (segments others : List (Segment κ)) :
    atoms (segments ++ others) = atoms segments ++ atoms others := by
  fun_induction atoms segments with
  | case1 => rfl
  | case2 t rest ih => simp [atoms, ih]
  | case3 c rest ih => simp [atoms, ih]

theorem map_inl_inj {as bs : List Atom} (same : as.map (Sum.inl : Atom → Atom ⊕ κ) = bs.map .inl) :
    as = bs :=
  (List.map_inj_right fun _ _ eq => Sum.inl.inj eq).mp same

theorem head_atoms {segments : List (Segment κ)} (first : ∀ s ∈ segments.head?, s.isText = false) :
    ∀ a ∈ (atoms segments).head?, a.isLeft = false := by
  cases segments with
  | nil => simp [atoms]
  | cons s rest =>
    cases s with
    | text t => cases first _ rfl
    | command c =>
      intro a head
      cases head
      rfl

theorem isLeft_of_mem {as : List Atom} : ∀ a ∈ as.map (Sum.inl : Atom → Atom ⊕ κ), a.isLeft := by
  intro a member
  obtain ⟨b, _, rfl⟩ := List.mem_map.mp member
  rfl

theorem exists_atom {t : Template} (some : t.isEmpty = false) : ∃ a more, t.atoms = a :: more := by
  cases atoms : t.atoms with
  | nil => rw [Template.isEmpty_iff.mpr atoms] at some; cases some
  | cons a more => exact ⟨a, more, rfl⟩

/-- A merged run of segments is known by its atoms. -/
theorem eq_of_atoms {segments others : List (Segment κ)} (merged : Merged segments)
    (merged' : Merged others) (same : atoms segments = atoms others) : segments = others := by
  induction segments generalizing others with
  | nil =>
    cases others with
    | nil => rfl
    | cons s rest =>
      cases s with
      | text t =>
        obtain ⟨a, more, first⟩ := exists_atom merged'.1
        rw [atoms, atoms, first] at same
        cases same
      | command c => cases same
  | cons s rest ih =>
    cases s with
    | text t =>
      obtain ⟨some, stop, later⟩ := merged
      obtain ⟨a, more, first⟩ := exists_atom some
      cases others with
      | nil =>
        rw [atoms, atoms, first] at same
        cases same
      | cons s' rest' =>
        cases s' with
        | text t' =>
          obtain ⟨_, stop', later'⟩ := merged'
          obtain ⟨front, behind⟩ := append_inj_of_stop isLeft_of_mem isLeft_of_mem
            (head_atoms stop) (head_atoms stop') same
          rw [Template.eq_of_atoms (map_inl_inj front), ih later later' behind]
        | command c =>
          rw [atoms, atoms, first] at same
          cases same
    | command c =>
      cases others with
      | nil => cases same
      | cons s' rest' =>
        cases s' with
        | text t' =>
          obtain ⟨a, more, first⟩ := exists_atom merged'.1
          rw [atoms, atoms, first] at same
          cases same
        | command c' =>
          obtain ⟨front, behind⟩ := List.cons.inj same
          cases front
          have inside : Merged rest' := merged'
          rw [ih merged inside behind]

theorem atoms_push (segments : List (Segment κ)) (s : Segment κ) :
    atoms (push segments s) = atoms segments ++ atoms [s] := by
  fun_induction push segments s with
  | case1 s => rfl
  | case2 t u => simp [atoms, Template.atoms_append]
  | case3 first rest s other ih =>
    cases first with
    | text t => simp [atoms, ih]
    | command c => simp [atoms, ih]

theorem atoms_pushText (segments : List (Segment κ)) (t : Template) :
    atoms (pushText segments t) = atoms segments ++ t.atoms.map .inl := by
  unfold pushText
  split
  · rename_i empty
    rw [Template.isEmpty_iff.mp empty]
    simp
  · rw [atoms_push]
    simp [atoms]

theorem isEmpty_append {t u : Template} (some : t.isEmpty = false) : (t ++ u).isEmpty = false := by
  obtain ⟨a, more, first⟩ := exists_atom some
  rw [Bool.eq_false_iff, Ne, Template.isEmpty_iff, Template.atoms_append, first]
  exact List.cons_ne_nil _ _

theorem merged_push {segments : List (Segment κ)} {s : Segment κ} (merged : Merged segments)
    (alone : Merged [s]) : Merged (push segments s) := by
  fun_induction push segments s with
  | case1 s => exact alone
  | case2 t u => exact ⟨isEmpty_append merged.1, by simp, trivial⟩
  | case3 first rest s other ih =>
    cases first with
    | command c => exact ih merged alone
    | text t =>
      obtain ⟨some, stop, later⟩ := merged
      refine ⟨some, ?_, ih later alone⟩
      cases rest with
      | nil =>
        cases s with
        | text u => exact (other t u rfl rfl rfl).elim
        | command c => simp [push, isText]
      | cons second more =>
        cases second with
        | text u => cases stop _ rfl
        | command c =>
          cases s <;> simp [push, isText]

theorem merged_pushText {segments : List (Segment κ)} {t : Template} (merged : Merged segments) :
    Merged (pushText segments t) := by
  unfold pushText
  split
  · exact merged
  · rename_i some
    exact merged_push merged ⟨by simpa using some, by simp, trivial⟩

/-- Whether an atom is a blank character. -/
def isBlankAtom : Atom ⊕ κ → Bool
  | .inl a => a.isBlank
  | .inr _ => false

theorem dropWhile_inl (as : List Atom) :
    (as.map (Sum.inl : Atom → Atom ⊕ κ)).dropWhile isBlankAtom =
      (as.dropWhile Atom.isBlank).map .inl := by
  rw [List.dropWhile_map]
  rfl

theorem atoms_trimStart (segments : List (Segment κ)) :
    atoms (trimStart segments) = (atoms segments).dropWhile isBlankAtom := by
  fun_induction trimStart segments with
  | case1 t rest trimmed empty ih =>
    have none : (t.atoms.map (Sum.inl : Atom → Atom ⊕ κ)).dropWhile isBlankAtom = [] := by
      rw [dropWhile_inl, ← Template.atoms_trimStart, Template.isEmpty_iff.mp empty]
      rfl
    rw [ih, atoms, dropWhile_append_nil none]
  | case2 t rest trimmed some =>
    have left : (t.atoms.map (Sum.inl : Atom → Atom ⊕ κ)).dropWhile isBlankAtom ≠ [] := by
      rw [dropWhile_inl, ← Template.atoms_trimStart, Ne, List.map_eq_nil_iff]
      exact fun none => some (Template.isEmpty_iff.mpr none)
    rw [atoms, atoms, dropWhile_append_some left, dropWhile_inl, ← Template.atoms_trimStart]
  | case3 segments other =>
    cases segments with
    | nil => rfl
    | cons s rest =>
      cases s with
      | text t => exact (other t rest rfl).elim
      | command c => rfl

theorem rdropWhile_inl (as : List Atom) :
    (as.map (Sum.inl : Atom → Atom ⊕ κ)).rdropWhile isBlankAtom =
      (as.rdropWhile Atom.isBlank).map .inl := by
  rw [List.rdropWhile, ← List.map_reverse, dropWhile_inl, ← List.map_reverse]
  rfl

theorem atoms_trimEndReversed (segments : List (Segment κ)) :
    atoms (trimEndReversed segments).reverse =
      (atoms segments.reverse).rdropWhile isBlankAtom := by
  fun_induction trimEndReversed segments with
  | case1 t rest trimmed empty ih =>
    have none : (t.atoms.map (Sum.inl : Atom → Atom ⊕ κ)).rdropWhile isBlankAtom = [] := by
      rw [rdropWhile_inl, ← Template.atoms_trimEnd, Template.isEmpty_iff.mp empty]
      rfl
    rw [ih, List.reverse_cons, atoms_append, atoms, atoms, List.append_nil,
      rdropWhile_append_nil none]
  | case2 t rest trimmed some =>
    have left : (t.atoms.map (Sum.inl : Atom → Atom ⊕ κ)).rdropWhile isBlankAtom ≠ [] := by
      rw [rdropWhile_inl, ← Template.atoms_trimEnd, Ne, List.map_eq_nil_iff]
      exact fun none => some (Template.isEmpty_iff.mpr none)
    rw [List.reverse_cons, List.reverse_cons, atoms_append, atoms_append]
    simp only [atoms, List.append_nil]
    rw [rdropWhile_append_some left, rdropWhile_inl, ← Template.atoms_trimEnd]
  | case3 segments other =>
    cases segments with
    | nil => rfl
    | cons s rest =>
      cases s with
      | text t => exact (other t rest rfl).elim
      | command c => simp [atoms_append, atoms, isBlankAtom]

/-- Trimming takes the blank characters away at both ends. -/
theorem atoms_trim (segments : List (Segment κ)) :
    atoms (trim segments) = ((atoms segments).dropWhile isBlankAtom).rdropWhile isBlankAtom := by
  rw [trim, atoms_trimEndReversed, List.reverse_reverse, atoms_trimStart]

/-- Shortens the text that the segments start with. Texts of which nothing is left fall away, and
what stands behind them is shortened in their place. -/
def trimBy (shorten : Template → Template) : List (Segment κ) → List (Segment κ)
  | .text t :: rest =>
      if (shorten t).isEmpty then trimBy shorten rest else .text (shorten t) :: rest
  | segments => segments

theorem trimStart_eq (segments : List (Segment κ)) :
    trimStart segments = trimBy Template.trimStart segments := by
  fun_induction trimStart segments with
  | case1 t rest trimmed empty ih => rw [trimBy, if_pos empty, ih]
  | case2 t rest trimmed some => rw [trimBy, if_neg some]
  | case3 segments other => rw [trimBy.eq_2 _ _ other]

theorem trimEndReversed_eq (segments : List (Segment κ)) :
    trimEndReversed segments = trimBy Template.trimEnd segments := by
  fun_induction trimEndReversed segments with
  | case1 t rest trimmed empty ih => rw [trimBy, if_pos empty, ih]
  | case2 t rest trimmed some => rw [trimBy, if_neg some]
  | case3 segments other => rw [trimBy.eq_2 _ _ other]

theorem trim_eq (segments : List (Segment κ)) : trim segments =
    (trimBy Template.trimEnd (trimBy Template.trimStart segments).reverse).reverse := by
  rw [trim, trimStart_eq, trimEndReversed_eq]

theorem merged_trimBy {shorten : Template → Template} {segments : List (Segment κ)}
    (merged : Merged segments) : Merged (trimBy shorten segments) := by
  fun_induction trimBy shorten segments with
  | case1 t rest empty ih => exact ih merged.2.2
  | case2 t rest some => exact ⟨by simpa using some, merged.2⟩
  | case3 segments other => exact merged

/-- What it means to be merged is the same from both ends. -/
theorem merged_iff {segments : List (Segment κ)} : Merged segments ↔
    (∀ t, .text t ∈ segments → t.isEmpty = false) ∧
      segments.IsChain fun s u => s.isText = false ∨ u.isText = false := by
  induction segments with
  | nil => simp [Merged]
  | cons s rest ih =>
    rw [List.isChain_cons]
    cases s with
    | text t => simp only [Merged, ih, List.mem_cons, Segment.text.injEq, isText]; grind
    | command c => simp [Merged, ih, isText]

theorem merged_reverse {segments : List (Segment κ)} :
    Merged segments.reverse ↔ Merged segments := by
  rw [merged_iff, merged_iff, List.isChain_reverse]
  simp only [List.mem_reverse, or_comm]

theorem merged_trim {segments : List (Segment κ)} (merged : Merged segments) :
    Merged (trim segments) := by
  rw [trim_eq, merged_reverse]
  exact merged_trimBy (merged_reverse.mpr (merged_trimBy merged))

/-- Trimming takes all away that stands around trimmed segments. -/
theorem trim_of_padded {segments others : List (Segment κ)} {front back : List (Atom ⊕ κ)}
    (merged : Merged segments) (merged' : Merged others) (trimmed : trim others = others)
    (first : ∀ a ∈ front, isBlankAtom a) (last : ∀ a ∈ back, isBlankAtom a)
    (padded : atoms segments = front ++ (atoms others ++ back)) : trim segments = others := by
  refine eq_of_atoms (merged_trim merged) merged' ?_
  rw [atoms_trim, padded, dropWhile_padded first last, ← atoms_trim, trimmed]

end Segment

end Parley
