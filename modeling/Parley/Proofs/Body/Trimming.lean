import Parley.Body.Model
import Parley.Proofs.Template.Firm

/-!
What trimming takes away. Of all that stands in some segments, trimming takes the blank characters in
front of anything else and behind it, and nothing else: the segments from the first command to the
last stay as they are, and no text that is left at an end is empty or blank there.
-/
namespace Parley

namespace Template

/-- Whether a template starts with literal text whose first character is a blank. -/
def BeginsBlank (t : Template) : Prop :=
  ∃ text c, t.parts.head? = some (.literal text) ∧ text.toList.head? = some c ∧ Parley.isBlank c

/-- Whether a template ends with literal text whose last character is a blank. -/
def EndsBlank (t : Template) : Prop :=
  ∃ text c, t.parts.getLast? = some (.literal text) ∧ text.toList.getLast? = some c ∧
    Parley.isBlank c

theorem not_beginsBlank {t : Template} (kept : t.trimStart = t) : ¬t.BeginsBlank := by
  rintro ⟨text, c, first, char, blank⟩
  obtain ⟨rest, parts⟩ := List.head?_eq_some_iff.mp first
  obtain ⟨more, chars⟩ := List.head?_eq_some_iff.mp char
  have start := congrArg atoms kept
  rw [atoms_trimStart, List.dropWhile_eq_self_iff] at start
  have atoms : t.atoms = .char c :: (more.map .char ++ rest.flatMap Part.atoms) := by
    rw [Template.atoms, parts, List.flatMap_cons, Part.atoms, chars]
    rfl
  simp only [atoms] at start
  exact start (Nat.zero_lt_succ _) blank

theorem not_endsBlank {t : Template} (kept : t.trimEnd = t) : ¬t.EndsBlank := by
  rintro ⟨text, c, last, char, blank⟩
  obtain ⟨rest, parts⟩ := List.getLast?_eq_some_iff.mp last
  obtain ⟨more, chars⟩ := List.getLast?_eq_some_iff.mp char
  have finish := congrArg atoms kept
  rw [atoms_trimEnd, List.rdropWhile_eq_self_iff] at finish
  have atoms : t.atoms = (rest.flatMap Part.atoms ++ more.map .char) ++ [.char c] := by
    rw [Template.atoms, parts, List.flatMap_append, List.flatMap_singleton, Part.atoms, chars,
      List.map_append, List.append_assoc]
    rfl
  simp only [atoms] at finish
  refine finish (List.append_ne_nil_of_right_ne_nil _ (List.cons_ne_nil _ _)) ?_
  rw [List.getLast_append_singleton]
  exact blank

theorem shown_of_isPlain {t : Template} (plain : t.isPlain) : t.shown = t.plainText := by
  unfold shown plainText
  congr 1
  refine List.map_congr_left fun part member => ?_
  have literal := List.all_eq_true.mp plain part member
  cases part with
  | literal text => rfl
  | var name => cases literal

end Template

namespace Segment

variable {κ : Type} {segments front core back others : List (Segment κ)}
  {shorten : Template → Template}

/-! One end -/

theorem isText_trimBy (texts : ∀ s ∈ segments, s.isText) :
    ∀ s ∈ trimBy shorten segments, s.isText := by
  fun_induction trimBy shorten segments with
  | case1 t rest empty ih => exact ih fun s member => texts s (List.mem_cons_of_mem _ member)
  | case2 t rest some =>
    intro s member
    rcases List.mem_cons.mp member with rfl | later
    · rfl
    · exact texts s (List.mem_cons_of_mem _ later)
  | case3 segments other => exact texts

/-- What follows texts up to a command stays as it is. -/
theorem trimBy_append (texts : ∀ s ∈ front, s.isText)
    (stop : ∀ s ∈ others.head?, s.isText = false) :
    trimBy shorten (front ++ others) = trimBy shorten front ++ others := by
  fun_induction trimBy shorten front with
  | case1 t rest empty ih =>
    rw [List.cons_append, trimBy, if_pos empty]
    exact ih fun s member => texts s (List.mem_cons_of_mem _ member)
  | case2 t rest some => rw [List.cons_append, trimBy, if_neg some]; rfl
  | case3 front other =>
    cases front with
    | cons s rest =>
      cases s with
      | text t => exact (other t rest rfl).elim
      | command c => cases texts _ List.mem_cons_self
    | nil =>
      refine trimBy.eq_2 _ _ fun t rest first => ?_
      rw [List.nil_append] at first
      cases stop (.text t) (by rw [first]; rfl)

/-! Both ends -/

/-- The segments from the first command to the last stay between what is left of the texts around
them. -/
theorem trim_between {c d : κ} (texts : ∀ s ∈ front, s.isText) (texts' : ∀ s ∈ back, s.isText)
    (first : core.head? = some (.command c)) (last : core.getLast? = some (.command d)) :
    trim (front ++ (core ++ back)) =
      trimStart front ++ (core ++ (trimEndReversed back.reverse).reverse) := by
  have stop : ∀ s ∈ (core ++ back).head?, s.isText = false := by
    intro s head
    rw [List.head?_append, first] at head
    cases head
    rfl
  have stop' : ∀ s ∈ (core.reverse ++ (trimBy Template.trimStart front).reverse).head?,
      s.isText = false := by
    intro s head
    rw [List.head?_append, List.head?_reverse, last] at head
    cases head
    rfl
  rw [trim_eq, trimBy_append texts stop, List.reverse_append, List.reverse_append,
    List.append_assoc, trimBy_append (by simpa using texts') stop', trimStart_eq,
    trimEndReversed_eq]
  simp only [List.reverse_append, List.reverse_reverse, List.append_assoc]

/-! Text without commands and variables -/

/-- Whether some segments come to characters only. -/
def Flat (segments : List (Segment κ)) : Prop := ∀ a ∈ atoms segments, ∃ c, a = .inl (.char c)

theorem flat_of_plain (none : commands segments = [])
    (plain : ∀ t, .text t ∈ segments → t.isPlain) : Flat segments := by
  induction segments with
  | nil => simp [Flat, atoms]
  | cons s rest ih =>
    cases s with
    | command c => cases none
    | text t =>
      have later := ih none fun u member => plain u (List.mem_cons_of_mem _ member)
      intro a member
      rcases List.mem_append.mp member with here | behind
      · rw [Template.atoms_of_isPlain (plain t List.mem_cons_self), List.map_map] at here
        obtain ⟨c, _, rfl⟩ := List.mem_map.mp here
        exact ⟨c, rfl⟩
      · exact later a behind

theorem Flat.trim (flat : Flat segments) : Flat (Segment.trim segments) := by
  intro a member
  rw [atoms_trim] at member
  exact flat a ((List.dropWhile_suffix _).subset ((List.rdropWhile_prefix _ _).subset member))

/-- What such segments show is what they are made of. -/
theorem Flat.atoms_eq (flat : Flat segments) :
    atoms segments = ((shown segments).toList.map .char).map .inl := by
  induction segments with
  | nil => rfl
  | cons s rest ih =>
    cases s with
    | command c =>
      obtain ⟨d, same⟩ := flat (.inr c) List.mem_cons_self
      cases same
    | text t =>
      have plain : t.isPlain := Template.isPlain_iff.mpr fun a member => by
        obtain ⟨c, same⟩ := flat (.inl a) (List.mem_append_left _ (List.mem_map_of_mem member))
        cases same
        rfl
      have later := ih fun a member => flat a (List.mem_append_right _ member)
      have split : shown (.text t :: rest) = t.shown ++ shown rest := String.join_cons ..
      rw [atoms, later, split, Template.shown_of_isPlain plain, Template.atoms_of_isPlain plain,
        String.toList_append, List.map_append, List.map_append]

theorem Flat.shown_trim (flat : Flat segments) :
    shown (Segment.trim segments) = strip (shown segments) := by
  have stripped : ((shown (Segment.trim segments)).toList.map Atom.char).map
      (Sum.inl : Atom → Atom ⊕ κ) = ((stripChars (shown segments).toList).map .char).map .inl := by
    rw [← flat.trim.atoms_eq, atoms_trim, flat.atoms_eq, dropWhile_inl, rdropWhile_inl,
      dropWhile_chars, rdropWhile_chars]
    rfl
  have chars := (List.map_inj_right fun _ _ => Atom.char.inj).mp (map_inl_inj stripped)
  rw [← String.ofList_toList (s := shown (Segment.trim segments)), chars]
  rfl

/-- What trimming some segments makes of them. -/
structure Trims (segments trimmed : List (Segment κ)) : Prop where
  /-- Of all that stands in the segments, the blank characters at both ends are gone. -/
  atoms : atoms trimmed = ((atoms segments).dropWhile isBlankAtom).rdropWhile isBlankAtom
  /-- From the first command to the last all stays as it is, between what is left of the texts
  around it. -/
  between : ∀ front core back c d, segments = front ++ (core ++ back) →
    (∀ s ∈ front, s.isText) → (∀ s ∈ back, s.isText) →
    core.head? = some (.command c) → core.getLast? = some (.command d) →
    ∃ before behind, trimmed = before ++ (core ++ behind) ∧
      (∀ s ∈ before, s.isText) ∧ (∀ s ∈ behind, s.isText) ∧
      Segment.atoms before = (Segment.atoms front).dropWhile isBlankAtom ∧
      Segment.atoms behind = (Segment.atoms back).rdropWhile isBlankAtom
  first : ∀ t, trimmed.head? = some (.text t) → t.isEmpty = false ∧ ¬t.BeginsBlank
  last : ∀ t, trimmed.getLast? = some (.text t) → t.isEmpty = false ∧ ¬t.EndsBlank
  shown : commands segments = [] → (∀ t, .text t ∈ segments → t.isPlain) →
    shown trimmed = strip (shown segments)

theorem trims_trim (segments : List (Segment κ)) : Trims segments (trim segments) where
  atoms := atoms_trim segments
  between := by
    rintro front core back c d rfl texts texts' first last
    refine ⟨_, _, trim_between texts texts' first last, ?_, ?_, atoms_trimStart front, ?_⟩
    · rw [trimStart_eq]
      exact isText_trimBy texts
    · rw [trimEndReversed_eq]
      intro s member
      exact isText_trimBy (by simpa using texts') s (List.mem_reverse.mp member)
    · rw [atoms_trimEndReversed, List.reverse_reverse]
  first t head := by
    obtain ⟨some, kept⟩ := firm_trim segments t head
    exact ⟨some, Template.not_beginsBlank kept⟩
  last t last := by
    rw [trim_eq, List.getLast?_reverse] at last
    obtain ⟨some, kept⟩ := head_trimBy Template.trimEnd_trimEnd last
    exact ⟨some, Template.not_endsBlank kept⟩
  shown none plain := (flat_of_plain none plain).shown_trim

end Segment

/-- Trimming a body or the statement of a reply is settled by doing it once, keeps the replies, and
takes nothing but blank characters at both ends; on templates the trimming of either end is settled
by doing it once, and that of both comes to the same in either order. No text need be joined to the
text beside it. -/
theorem Body.trims_exactly (b : Body) (statement : List (Segment Input)) (t : Template) :
    b.trim.trim = b.trim ∧ b.trim.replies = b.replies ∧ Segment.Trims b.segments b.trim.segments ∧
    Segment.trim (Segment.trim statement) = Segment.trim statement ∧
    Segment.Trims statement (Segment.trim statement) ∧
    t.trimStart.trimStart = t.trimStart ∧ t.trimEnd.trimEnd = t.trimEnd ∧
    t.trimStart.trimEnd = t.trimEnd.trimStart :=
  ⟨congrArg (Body.mk · b.replies) (Segment.trim_idempotent b.segments), rfl,
    Segment.trims_trim b.segments, Segment.trim_idempotent statement, Segment.trims_trim statement,
    t.trimStart_trimStart, t.trimEnd_trimEnd, t.trimEnd_trimStart⟩

end Parley
