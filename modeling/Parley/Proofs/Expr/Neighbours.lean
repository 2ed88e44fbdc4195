import Mathlib.Data.List.Chain
import Parley.Proofs.Expr.Completeness

/-!
Which terminals stand beside each other in what the grammar derives: behind a terminal that an
operand is due after one starts, and behind the end of an operand nothing starts without a sign
between.
-/
namespace Parley.Expr

/-- Whether a terminal may stand behind another one. -/
def Beside (t u : Terminal) : Prop :=
  match t.expected with
  | .operand => starts u ∨ ∃ bracket, t = .opening bracket ∧ u = .closing bracket
  | .operator => followsNumber u ∨ u = .equals ∧ ∃ name, t = .var name
  | .member => ∃ name, u = .name name

/-- Whether terminals start and end as a phrase does and may stand beside each other. -/
structure Row (ts : List Terminal) : Prop where
  begins : ∃ t ∈ ts.head?, starts t
  beside : ts.IsChain Beside
  ends : ∀ t ∈ ts.getLast?, t.expected = .operator

theorem beside_of_starts {t u : Terminal} (due : t.expected = .operand) (start : starts u) :
    Beside t u := by
  rw [Beside, due]
  exact .inl start

theorem beside_of_follows {t u : Terminal} (ends : t.expected = .operator)
    (follows : followsNumber u) : Beside t u := by
  rw [Beside, ends]
  exact .inl follows

namespace Row

variable {left right ts : List Terminal} {t : Terminal}

theorem singleton (start : starts t) (ends : t.expected = .operator) : Row [t] :=
  ⟨⟨t, rfl, start⟩, .singleton t, by simp [ends]⟩

theorem cons (start : starts t) (due : t.expected = .operand) (row : Row ts) : Row (t :: ts) := by
  obtain ⟨u, first, begins⟩ := row.begins
  obtain ⟨rest, rfl⟩ := List.head?_eq_some_iff.mp first
  refine ⟨⟨t, rfl, start⟩, ?_, fun last => ?_⟩
  · exact .cons_cons (beside_of_starts due begins) row.beside
  · rw [List.getLast?_cons_cons]
    exact row.ends last

/-- A row goes on with a terminal that follows the end of an operand. -/
theorem append (row : Row left) (follows : followsNumber t) (chain : (t :: right).IsChain Beside)
    (ends : ∀ u ∈ (t :: right).getLast?, u.expected = .operator) : Row (left ++ t :: right) := by
  obtain ⟨u, first, begins⟩ := row.begins
  refine ⟨⟨u, ?_, begins⟩, ?_, ?_⟩
  · rw [List.head?_append, first]
    rfl
  · refine List.isChain_append.mpr ⟨row.beside, chain, fun last here next behind => ?_⟩
    cases behind
    exact beside_of_follows (row.ends last here) follows
  · rwa [List.getLast?_append_of_ne_nil _ (List.cons_ne_nil t right)]

theorem joined (first : Row left) (follows : followsNumber t) (due : t.expected = .operand)
    (second : Row right) : Row (left ++ t :: right) := by
  obtain ⟨u, head, begins⟩ := second.begins
  obtain ⟨rest, rfl⟩ := List.head?_eq_some_iff.mp head
  refine first.append follows ?_ ?_
  · exact .cons_cons (beside_of_starts due begins) second.beside
  · rw [List.getLast?_cons_cons]
    exact second.ends

theorem closed (bracket : Bracket) (row : Row ts) : Row (ts ++ [.closing bracket]) :=
  row.append rfl (.singleton _) (by simp [Terminal.expected])

theorem enclosed (bracket : Bracket) (row : Row ts) :
    Row (.opening bracket :: (ts ++ [.closing bracket])) :=
  (row.closed bracket).cons rfl rfl

theorem empty (bracket : Bracket) : Row [.opening bracket, .closing bracket] :=
  ⟨⟨_, rfl, rfl⟩, .cons_cons (.inr ⟨bracket, rfl, rfl⟩) (.singleton _), by simp [Terminal.expected]⟩

end Row

/-- What the grammar derives is a row. -/
theorem row_of_derives {ts : List Terminal} {phrase : Phrase} (derives : Derives ts phrase) :
    Row ts := by
  induction derives with
  | @assign name _ _ _ ih =>
    obtain ⟨u, first, begins⟩ := ih.begins
    obtain ⟨rest, rfl⟩ := List.head?_eq_some_iff.mp first
    refine ⟨⟨_, rfl, rfl⟩, ?_, ?_⟩
    · exact .cons_cons (.inr ⟨rfl, name, rfl⟩) (.cons_cons (.inl begins) ih.beside)
    · simpa using ih.ends
  | binary _ _ first second => exact first.joined rfl rfl second
  | not _ ih | neg _ ih => exact ih.cons rfl rfl
  | index _ _ first second => exact first.joined rfl rfl (second.closed .square)
  | @member _ _ name _ first =>
    exact first.append rfl (.cons_cons ⟨name, rfl⟩ (.singleton _)) (by simp [Terminal.expected])
  | var | literal => exact .singleton rfl rfl
  | emptyList | emptyMap => exact .empty _
  | list _ ih | map _ ih | round _ ih => exact ih.enclosed _
  | tighter _ _ ih | oneItem _ ih | oneEntry _ ih => exact ih
  | moreItems _ _ first second | entry _ _ first second | moreEntries _ _ first second =>
    exact first.joined rfl rfl second

end Parley.Expr
