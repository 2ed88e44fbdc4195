import Parley.Proofs.Dialogue.Places

/-!
Titles that are written in the header of a node. They are all that a block asks about the nodes
before it, and the node that is read from it has one of them.
-/
namespace Parley.Dialogue

/-- The title that a line of a header gives, fit for a node or not. -/
def titleIn? (line : List Char) : Option String :=
  let text := uncommented line
  let before := text.takeWhile (· != ':')
  (text.drop before.length).tail?.bind fun after =>
    if String.ofList (stripChars before) = "title" then some (String.ofList (stripChars after))
    else none

/-- The titles in the header of a node. -/
def titlesIn (lines : List (List Char)) : List String :=
  (lines.takeWhile (!isHeaderEnd ·)).filterMap titleIn?

theorem mem_titles_cons {line : List Char} {lines : List (List Char)} {t : String} :
    t ∈ (line :: lines).filterMap titleIn? ↔
      titleIn? line = some t ∨ t ∈ lines.filterMap titleIn? := by
  cases given : titleIn? line <;> simp [given, eq_comm]

namespace HeaderLines

variable {taken taken' : String → Bool} {h h' : HeaderLines} {number : Nat}

/-- A line asks about the title that it gives and about no other. -/
theorem add_congr {line : List Char} (same : ∀ t ∈ titleIn? line, taken t = taken' t) :
    h.add taken number line = h.add taken' number line := by
  unfold titleIn? at same
  unfold add
  dsimp only at same ⊢
  split
  · rfl
  · split
    · rfl
    · rename_i colon after behind
      rw [behind, List.tail?_cons, Option.bind_some] at same
      split
      · rfl
      · split
        · rfl
        · split
          · rename_i isTitle
            rw [same _ (by rw [if_pos isTitle]; rfl)]
          · rfl

theorem addAll_congr {lines : List (List Char)}
    (same : ∀ t ∈ lines.filterMap titleIn?, taken t = taken' t) :
    h.addAll taken number lines = h.addAll taken' number lines := by
  induction lines generalizing h number with
  | nil => rfl
  | cons line rest ih =>
    have first : h.add taken number line = h.add taken' number line :=
      add_congr fun t given => same t (mem_titles_cons.mpr (.inl given))
    rw [addAll, addAll, first]
    split
    · exact ih fun t member => same t (mem_titles_cons.mpr (.inr member))
    · rfl

theorem title_add {line : List Char} (read : h.add taken number line = .ok h') :
    ∀ t ∈ h'.title, t ∈ h.title ∨ titleIn? line = some t := by
  unfold add at read
  unfold titleIn?
  dsimp only at read ⊢
  intro t given
  split at read
  · cases read
    exact .inl given
  · split at read
    · cases read
    · rename_i colon after behind
      rw [behind, List.tail?_cons, Option.bind_some]
      split at read
      · cases read
      · split at read
        · cases read
        · split at read
          · rename_i isTitle
            split at read
            · cases read
            · split at read
              · cases read
              · cases read
                cases given
                exact .inr (if_pos isTitle)
          · split at read
            all_goals
              cases read
              exact .inl given

/-- The title of a header stands in one of its lines. -/
theorem title_addAll {lines : List (List Char)} (read : h.addAll taken number lines = .ok h') :
    ∀ t ∈ h'.title, t ∈ h.title ∨ t ∈ lines.filterMap titleIn? := by
  induction lines generalizing h number with
  | nil =>
    cases read
    exact fun t given => .inl given
  | cons line rest ih =>
    intro t given
    rw [addAll] at read
    split at read
    · rename_i next here
      rw [mem_titles_cons, ← or_assoc]
      exact (ih read t given).imp_left (title_add here t)
    · cases read

theorem title_header {found : Header} (read : h.header number = .ok found) :
    h.title = some found.title := by
  unfold header at read
  split at read
  · cases read
  · rename_i title given
    split at read
    · cases read
      exact given
    · split at read
      · cases read
      · split at read
        · cases read
        · cases read
          exact given

end HeaderLines

variable {name : String} {taken taken' : String → Bool} {b : NodeLines}

theorem nodeOf_congr (same : ∀ t ∈ titlesIn b.lines, taken t = taken' t) :
    nodeOf name taken b = nodeOf name taken' b := by
  unfold nodeOf
  dsimp only
  rw [HeaderLines.addAll_congr same]

theorem title_of_nodeOf {n : Node} {uses : List PointerUse}
    (read : nodeOf name taken b = some (.ok (n, uses))) : n.title ∈ titlesIn b.lines := by
  obtain ⟨above, bar, below, h, number, rfl, lines, added, given, _⟩ := of_nodeOf read
  have written := HeaderLines.title_addAll added n.title (HeaderLines.title_header given)
  exact written.resolve_left (by simp [HeaderLines.initial])

end Parley.Dialogue
