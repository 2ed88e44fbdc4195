import Parley.Text.Position

/-!
Counting places. A place behind some characters depends on where they start in one way only, so
that places in a part of a text are turned into places in the whole.
-/
namespace Parley.Position

@[simp] theorem after_nil (p : Position) : p.after [] = p := rfl

theorem after_cons (p : Position) (c : Char) (cs : List Char) :
    p.after (c :: cs) = (p.next c).after cs := rfl

theorem after_append (p : Position) (cs ds : List Char) :
    p.after (cs ++ ds) = (p.after cs).after ds := List.foldl_append

/-- A place in a text that starts at `origin` as a place in what that text is a part of. -/
def within (origin p : Position) : Position :=
  ⟨origin.line + (p.line - 1), if p.line = 1 then origin.column + (p.column - 1) else p.column⟩

/-- Whether a place is in a text at all. -/
def IsPlace (p : Position) : Prop := 0 < p.line ∧ 0 < p.column

theorem isPlace_start : start.IsPlace := ⟨Nat.one_pos, Nat.one_pos⟩

theorem isPlace_next {p : Position} (place : p.IsPlace) (c : Char) : (p.next c).IsPlace := by
  unfold next
  split
  · exact ⟨Nat.succ_pos _, Nat.one_pos⟩
  · exact ⟨place.1, Nat.succ_pos _⟩

theorem isPlace_after {p : Position} (place : p.IsPlace) (cs : List Char) :
    (p.after cs).IsPlace := by
  induction cs generalizing p with
  | nil => exact place
  | cons c rest ih => exact ih (isPlace_next place c)

theorem within_next (origin : Position) {p : Position} (place : p.IsPlace) (c : Char) :
    origin.within (p.next c) = (origin.within p).next c := by
  obtain ⟨line, column⟩ := place
  unfold next within
  split
  · simp
    omega
  · split
    · simp
      omega
    · simp

theorem within_after (origin : Position) {p : Position} (place : p.IsPlace) (cs : List Char) :
    origin.within (p.after cs) = (origin.within p).after cs := by
  induction cs generalizing p with
  | nil => rfl
  | cons c rest ih =>
    rw [after_cons, ih (isPlace_next place c), within_next origin place]
    rfl

/-- Counting from the start of a part and counting on from where the part starts are the same. -/
theorem within_after_start (origin : Position) (cs : List Char) :
    origin.within (start.after cs) = origin.after cs := by
  rw [within_after origin isPlace_start]
  rfl

end Parley.Position
