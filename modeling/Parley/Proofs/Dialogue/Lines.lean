import Parley.Dialogue.Parser
import Parley.Proofs.Body.Acceptance

/-!
The lines of what is written of a dialogue. A text that does not end in a break keeps its lines when
it is joined to another by a line feed, and no script ends in a break.
-/
namespace Parley

/-! Lines of joined texts -/

/-- The lines of a text without their breaks. -/
def linesOf (cs : List Char) : List (List Char) := (Line.ofChars cs).map Line.content

/-- Whether a text has a last character, and it is no break. -/
def EndsInside (cs : List Char) : Prop := ∃ c, cs.getLast? = some c ∧ isLineBreak c = false

theorem EndsInside.append {cs : List Char} (ends : EndsInside cs) (front : List Char) :
    EndsInside (front ++ cs) := by
  obtain ⟨c, last, inside⟩ := ends
  exact ⟨c, by rw [List.getLast?_append, last, Option.some_or], inside⟩

/-- Behind a break there is more of such a text. -/
theorem EndsInside.behind {c : Char} {cs : List Char} (ends : EndsInside (c :: cs))
    (isBreak : isLineBreak c) : EndsInside cs := by
  obtain ⟨d, last, inside⟩ := ends
  cases cs with
  | nil =>
    cases last
    cases isBreak.symm.trans inside
  | cons e more => exact ⟨d, by rwa [List.getLast?_cons_cons] at last, inside⟩

theorem endsInside_of_flat {cs : List Char} (some : cs ≠ [])
    (flat : ∀ c ∈ cs, isLineBreak c = false) : EndsInside cs :=
  ⟨cs.getLast some, List.getLast?_eq_some_getLast some, flat _ (List.getLast_mem some)⟩

theorem linesOf_ne_nil (c : Char) (cs : List Char) : linesOf (c :: cs) ≠ [] := by
  intro none
  have whole := flatMap_full_ofChars (c :: cs)
  rw [List.map_eq_nil_iff.mp none] at whole
  cases whole

theorem linesOf_break {c : Char} {cs : List Char} (ends : isLineBreak c)
    (single : c ≠ '\r' ∨ cs.head? ≠ some '\n') : linesOf (c :: cs) = [] :: linesOf cs := by
  rw [linesOf, Line.ofChars]
  · rw [if_pos ends]
    rfl
  · rintro more rfl rfl
    simp at single

theorem linesOf_inner {c : Char} {cs : List Char} (inner : isLineBreak c = false) :
    linesOf (c :: cs) = Tokenizer.prepend [c] (linesOf cs) := by
  rw [linesOf, Line.ofChars]
  · rw [inner, linesOf]
    cases Line.ofChars cs <;> rfl
  · rintro more rfl rfl
    cases inner

theorem linesOf_pair (cs : List Char) : linesOf ('\r' :: '\n' :: cs) = [] :: linesOf cs := by
  rw [linesOf, Line.ofChars]
  rfl

/-- No line has a break in it. -/
theorem flat_of_mem_linesOf {cs line : List Char} (member : line ∈ linesOf cs) :
    ∀ c ∈ line, isLineBreak c = false := by
  obtain ⟨whole, inside, rfl⟩ := List.mem_map.mp member
  exact (Line.flat_ofChars cs whole inside).1

theorem linesOf_joined {cs : List Char} (ends : EndsInside cs) (others : List Char) :
    linesOf (cs ++ '\n' :: others) = linesOf cs ++ linesOf others := by
  have feed : linesOf ('\n' :: others) = [] :: linesOf others :=
    linesOf_break (by decide) (.inl (by decide))
  fun_induction Line.ofChars cs with
  | case1 =>
    obtain ⟨_, none, _⟩ := ends
    cases none
  | case2 rest ih =>
    have later := (ends.behind (by decide)).behind (by decide)
    rw [List.cons_append, List.cons_append, linesOf_pair, linesOf_pair, ih later,
      List.cons_append]
  | case3 c rest notPair isBreak ih =>
    have later := ends.behind isBreak
    obtain ⟨d, more, rfl⟩ : ∃ d more, rest = d :: more := by
      obtain ⟨_, last, _⟩ := later
      exact List.exists_cons_of_ne_nil (by rintro rfl; cases last)
    have single : c ≠ '\r' ∨ d ≠ '\n' := by
      by_contra pair
      obtain ⟨rfl, rfl⟩ := not_or.mp pair |>.imp not_not.mp not_not.mp
      exact notPair more rfl rfl
    rw [List.cons_append, linesOf_break isBreak, ih later, linesOf_break isBreak, List.cons_append]
    · simpa using single
    · simpa using single
  | case4 c rest notPair inner ih =>
    have inner : isLineBreak c = false := by simpa using inner
    rw [List.cons_append, linesOf_inner inner, linesOf_inner inner]
    cases rest with
    | nil =>
      rw [List.nil_append, feed]
      rfl
    | cons d more =>
      have later : EndsInside (d :: more) := by
        obtain ⟨e, last, inside⟩ := ends
        exact ⟨e, by rwa [List.getLast?_cons_cons] at last, inside⟩
      rw [ih later]
      obtain ⟨line, lines, found⟩ := List.exists_cons_of_ne_nil (linesOf_ne_nil d more)
      rw [found]
      rfl

/-- The lines of texts that are joined by line feeds are the lines of each, one after the other. -/
theorem linesOf_intercalate {parts : List (List Char)} (ends : ∀ part ∈ parts, EndsInside part) :
    linesOf (['\n'].intercalate parts) = parts.flatMap linesOf := by
  induction parts with
  | nil => rfl
  | cons part rest ih =>
    cases rest with
    | nil => simp
    | cons next others =>
      have later := ih fun other member => ends other (List.mem_cons_of_mem part member)
      rw [List.intercalate_cons_cons, List.append_assoc, List.singleton_append,
        linesOf_joined (ends part List.mem_cons_self), later]
      rfl

theorem endsInside_intercalate {parts : List (List Char)} (some : parts ≠ [])
    (ends : ∀ part ∈ parts, EndsInside part) : EndsInside (['\n'].intercalate parts) := by
  induction parts with
  | nil => exact (some rfl).elim
  | cons part rest ih =>
    cases rest with
    | nil =>
      rw [List.intercalate_singleton]
      exact ends part List.mem_cons_self
    | cons next others =>
      rw [List.intercalate_cons_cons]
      have later := ih (by simp) fun other member => ends other (List.mem_cons_of_mem part member)
      exact later.append _

theorem linesOf_flat {cs : List Char} (some : cs ≠ []) (flat : ∀ c ∈ cs, isLineBreak c = false) :
    linesOf cs = [cs] := by
  induction cs with
  | nil => exact (some rfl).elim
  | cons c rest ih =>
    rw [linesOf_inner (flat c List.mem_cons_self)]
    by_cases none : rest = []
    · rw [none]
      rfl
    · rw [ih none fun d member => flat d (List.mem_cons_of_mem c member)]
      rfl

/-! The end of a script -/

theorem isBlank_of_isLineBreak {c : Char} (isBreak : isLineBreak c) : isBlank c := by
  simp only [isLineBreak, isBlank, Bool.or_eq_true, Bool.and_eq_true, decide_eq_true_eq,
    beq_iff_eq] at isBreak ⊢
  omega

/-- Whether an atom is written without a break at its end. -/
def Atom.Firm : Atom → Prop
  | .char c => Parley.isBlank c = false
  | .var name => isName name.toList

theorem endsInside_bodyPieces {as : List Atom} {a : Atom} (firm : a.Firm) (afterSlash : Bool) :
    EndsInside (Tokenizer.sourceOf (Tokenizer.bodyPieces afterSlash (as ++ [a]))) := by
  induction as generalizing afterSlash with
  | nil =>
    cases a with
    | char c =>
      have inside : isLineBreak c = false := by
        by_contra isBreak
        cases (isBlank_of_isLineBreak (by simpa using isBreak)).symm.trans firm
      rw [List.nil_append, Tokenizer.bodyPieces]
      split <;> exact ⟨c, rfl, inside⟩
    | var name =>
      have whole : Tokenizer.sourceOf (Tokenizer.bodyPieces afterSlash [.var name]) =
          ['$'] ++ name.toList := by
        simp [Tokenizer.bodyPieces, Tokenizer.sourceOf, Tokenizer.Piece.source]
      obtain ⟨c, more, same, _, all⟩ := isName_iff.mp firm
      rw [List.nil_append, whole]
      refine (endsInside_of_flat ?_ fun d member => ?_).append ['$']
      · rw [same]
        exact List.cons_ne_nil c more
      · exact Tokenizer.isLineBreak_of_isNameChar (all d member)
  | cons b rest ih =>
    cases b with
    | char c =>
      rw [List.cons_append, Tokenizer.bodyPieces, Tokenizer.sourceOf, List.flatMap_cons]
      exact (ih _).append _
    | var name =>
      rw [List.cons_append, Tokenizer.bodyPieces, Tokenizer.sourceOf, List.flatMap_cons]
      exact (ih _).append _

/-- A text ends in a marker that has no break in it. -/
theorem endsInside_marker {front marker : String} (some : marker.toList ≠ [])
    (flat : ∀ c ∈ marker.toList, isLineBreak c = false) : EndsInside (front ++ marker).toList := by
  rw [String.toList_append]
  exact (endsInside_of_flat some flat).append _

theorem Reply.endsInside_toScript (r : Reply) : EndsInside r.toScript.toList :=
  endsInside_marker (by decide) (by decide)

theorem endsInside_replies {replies : List Reply} (some : replies ≠ []) :
    EndsInside (String.join (replies.map fun r => "\n" ++ r.toScript)).toList := by
  induction replies with
  | nil => exact (some rfl).elim
  | cons r rest ih =>
    rw [List.map_cons, String.join_cons, String.toList_append]
    by_cases none : rest = []
    · rw [none, List.map_nil, String.join_nil, String.toList_empty, List.append_nil,
        String.toList_append]
      exact r.endsInside_toScript.append _
    · exact (ih none).append _

variable {dialogue : String}

theorem Command.endsInside_toScript {c : Command} (meets : c.Meets (Body.Law.accepted dialogue)) :
    EndsInside c.toScript.toList := by
  cases c with
  | input i => exact False.elim meets
  | action a =>
    rw [Command.toScript, Action.toScript]
    exact endsInside_marker (by decide) (by decide)
  | set s =>
    rw [Command.toScript, Assignment.toScript]
    exact endsInside_marker (by decide) (by decide)
  | choice clauses otherwise =>
    rw [Command.toScript]
    exact endsInside_marker (by decide) (by decide)
  | random clauses =>
    rw [Command.toScript]
    exact endsInside_marker (by decide) (by decide)

theorem endsInside_segments {segments : List (Segment Command)}
    (merged : Segment.Merged segments) (meet : SegmentsMeet (Body.Law.accepted dialogue) segments)
    (firm : ∀ a ∈ (Segment.atoms segments).getLast?, Segment.isBlankAtom a = false)
    (some : segments ≠ []) : EndsInside (segmentsScript segments).toList := by
  induction segments with
  | nil => exact (some rfl).elim
  | cons s rest ih =>
    by_cases last : rest = []
    · subst last
      cases s with
      | command c =>
        rw [segmentsScript, segmentsScript, String.append_empty]
        exact Command.endsInside_toScript meet.1
      | text t =>
        rw [segmentsScript, segmentsScript, String.append_empty, ← Tokenizer.sourceOf_body]
        have filled : t.atoms ≠ [] := fun none => by
          cases merged.1.symm.trans (Template.isEmpty_iff.mpr none)
        obtain ⟨front, a, split⟩ : ∃ front a, t.atoms = front ++ [a] :=
          ⟨_, _, (List.dropLast_append_getLast filled).symm⟩
        have filling : a.isBlank = false :=
          firm (.inl a) (by simp [Segment.atoms, split])
        have firm : a.Firm := by
          cases a with
          | char c => exact filling
          | var name => exact meet.1 name (split ▸ List.mem_append_right _ List.mem_cons_self)
        rw [split]
        exact endsInside_bodyPieces firm false
    · cases s with
      | command c =>
        rw [segmentsScript, String.toList_append]
        refine (ih merged meet.2 (fun a member => firm a ?_) last).append _
        rw [Segment.atoms, List.getLast?_cons, member]
        rfl
      | text t =>
        rw [segmentsScript, String.toList_append]
        refine (ih merged.2.2 meet.2 (fun a member => firm a ?_) last).append _
        rw [Segment.atoms, List.getLast?_append, member]
        rfl

/-- The script of a body that is read has no break at its end. -/
theorem Body.endsInside_toScript {b : Body} (meets : b.Meets (Law.accepted dialogue))
    (some : b.isEmpty = false) : EndsInside b.toScript.toList := by
  obtain ⟨segments, replies⟩ := b
  obtain ⟨⟨merged, trimmed, _⟩, meet, _⟩ := meets
  rw [Body.toScript, String.toList_append]
  by_cases none : replies = []
  · have filled : segments ≠ [] := by
      rintro rfl
      rw [none] at some
      cases some
    rw [none, List.map_nil, String.join_nil, String.toList_empty, List.append_nil]
    refine endsInside_segments merged meet (fun a last => ?_) filled
    have whole : Segment.trim segments = segments := trimmed
    rw [← whole, Segment.atoms_trim] at last
    obtain ⟨nonempty, rfl⟩ := List.mem_getLast?_eq_getLast last
    exact Bool.eq_false_iff.mpr (List.rdropWhile_last_not _ _ nonempty)
  · exact (endsInside_replies none).append _

end Parley
