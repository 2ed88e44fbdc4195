import Parley.Proofs.Store.Quiet

/-!
What an evaluation touches. It changes the variables that its expression assigns to and no others,
it turns on those that its expression names and on no others, and it stops halfway just so when it
fails. Assignments within operands, items, keys and positions count like all others.
-/
namespace Parley

namespace Scope.Lawful

variable {σ : Type} {scope : Scope σ} {steady : σ → Prop} (lawful : scope.Lawful steady)
include lawful

/-- What an expression assigns to is all that its evaluation can change. -/
theorem read_eval_of_not_target (e : Expr) {s : σ} (calm : steady s) {name : String}
    (other : name ∉ e.targets) : scope.read name (e.eval scope s).2 = scope.read name s := by
  have confined := Expr.confined_eval lawful e (List.Subset.refl _) (List.Subset.refl _)
  obtain ⟨made, result, among, run, _⟩ := confined s s calm calm fun _ _ => rfl
  rw [run]
  apply lawful.read_perform_other calm
  intro w member same
  exact other (same ▸ among w member)

/-- What an expression names is all that its evaluation turns on. -/
theorem eval_of_agree (e : Expr) {s t : σ} (calm : steady s) (calm' : steady t)
    (agree : scope.Agree e.names s t) :
    (e.eval scope s).1 = (e.eval scope t).1 ∧
      scope.Agree e.names (e.eval scope s).2 (e.eval scope t).2 := by
  have confined := Expr.confined_eval lawful e (List.Subset.refl _) (List.Subset.refl _)
  obtain ⟨made, result, _, left, right⟩ := confined s t calm calm' agree
  rw [left, right]
  exact ⟨rfl, lawful.agree_perform calm calm' agree⟩

theorem eval_of_not_assigns {e : Expr} (quiet : e.assigns = false) {s : σ} (calm : steady s) :
    (e.eval scope s).2 = s := by
  have confined : Run.Confined scope steady e.names [] (e.eval scope) :=
    Expr.confined_eval_of_not_assigns lawful quiet (List.Subset.refl _)
  obtain ⟨made, result, among, run, _⟩ := confined s s calm calm fun _ _ => rfl
  have nothing : made = [] :=
    List.eq_nil_iff_forall_not_mem.mpr fun w member => List.not_mem_nil (among w member)
  rw [run, nothing]
  rfl

end Scope.Lawful

namespace Expr

/-- Whether an expression comes to a value or fails, names that it does not assign to stay bound as
they were. Bindings alike in all that it names give the same value or the same failure and are then
alike in these names again; and without an assignment nothing changes at all. -/
theorem eval_touches_named (e : Expr) (bindings : Bindings) :
    (∀ name, name ∉ e.targets →
      Assoc.get? name (e.eval Scope.plain bindings).2 = Assoc.get? name bindings) ∧
    (∀ others : Bindings, (∀ name ∈ e.names, Assoc.get? name bindings = Assoc.get? name others) →
      (e.eval Scope.plain bindings).1 = (e.eval Scope.plain others).1 ∧
        ∀ name ∈ e.names, Assoc.get? name (e.eval Scope.plain bindings).2 =
          Assoc.get? name (e.eval Scope.plain others).2) ∧
    (e.assigns = false → (e.eval Scope.plain bindings).2 = bindings) := by
  have lawful := Scope.plain_lawful
  refine ⟨?_, ?_, ?_⟩
  · intro name other
    exact lawful.read_eval_of_not_target e trivial other
  · intro others agree
    exact lawful.eval_of_agree e trivial trivial agree
  · intro quiet
    exact lawful.eval_of_not_assigns quiet trivial

/-- A list that fails at its second item, when the first one has been assigned. -/
theorem halted_list_touches_named :
    let quotient : Expr := .binary .div (.var "a") (.var "z")
    let e : Expr := .list [.assign "a" (.literal (.int 1)), quotient]
    let here : Bindings := [("n", .int 5), ("z", .int 0)]
    let there : Bindings := [("z", .int 0)]
    errorIn (e.eval Scope.plain here).1 = some (.evaluation .divisionByZero) ∧
    ("n" ∉ e.targets ∧
      Assoc.get? "n" (e.eval Scope.plain here).2 = Assoc.get? "n" here) ∧
    ((∀ name ∈ e.names, Assoc.get? name here = Assoc.get? name there) ∧
      (e.eval Scope.plain here).1 = (e.eval Scope.plain there).1 ∧
        ∀ name ∈ e.names, Assoc.get? name (e.eval Scope.plain here).2 =
          Assoc.get? name (e.eval Scope.plain there).2) ∧
    quotient.assigns = false ∧ (quotient.eval Scope.plain here).2 = here := by
  intro quotient e here there
  have other : "n" ∉ e.targets := by decide
  have agree : ∀ name ∈ e.names, Assoc.get? name here = Assoc.get? name there := by
    have names : e.names = ["a", "a", "z"] := rfl
    rw [names]
    simp [here, there, Assoc.get?]
  have quiet : quotient.assigns = false := by decide
  obtain ⟨frame, same, _⟩ := eval_touches_named e here
  obtain ⟨_, _, unchanged⟩ := eval_touches_named quotient here
  exact ⟨by decide +kernel, ⟨other, frame "n" other⟩, ⟨agree, same there agree⟩, quiet,
    unchanged quiet⟩

end Expr
end Parley
