/-!
The longest run of a class that a list starts with, and what it takes to decide that all of a list
is of a class.
-/
namespace Parley

-- characters are finitely many, and trying all of them comes before trying the members of the list
instance (priority := 2000) decidableForallMem {α : Type} {p : α → Prop} [DecidablePred p]
    (xs : List α) : Decidable (∀ x ∈ xs, p x) :=
  List.decidableBAll (p := p) xs

section Span

variable {α : Type} {p : α → Bool} {xs ys rest others : List α}

/-- A run of a class is what is taken in front of something that is not of it. -/
theorem takeWhile_append_of_stop (all : ∀ x ∈ xs, p x) (stop : ∀ x ∈ rest.head?, p x = false) :
    (xs ++ rest).takeWhile p = xs := by
  rw [List.takeWhile_append_of_pos all]
  cases rest with
  | nil => simp
  | cons x more => simp [stop x rfl]

theorem dropWhile_append_of_stop (all : ∀ x ∈ xs, p x) (stop : ∀ x ∈ rest.head?, p x = false) :
    (xs ++ rest).dropWhile p = rest := by
  rw [List.dropWhile_append_of_pos all]
  cases rest with
  | nil => rfl
  | cons x more => simp [stop x rfl]

/-- Two lists that start with a run of a class each agree in the run and behind it. -/
theorem append_inj_of_stop (first : ∀ x ∈ xs, p x) (second : ∀ y ∈ ys, p y)
    (stop : ∀ x ∈ rest.head?, p x = false) (stop' : ∀ x ∈ others.head?, p x = false)
    (same : xs ++ rest = ys ++ others) : xs = ys ∧ rest = others := by
  constructor
  · rw [← takeWhile_append_of_stop first stop, same, takeWhile_append_of_stop second stop']
  · rw [← dropWhile_append_of_stop first stop, same, dropWhile_append_of_stop second stop']

end Span

end Parley
