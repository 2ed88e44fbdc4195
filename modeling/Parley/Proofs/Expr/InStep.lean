import Parley.Proofs.Outcome

/-!
Two ways to hold variables. If what is read is the same from related states, and writes keep states
related, then an expression comes to the same value in both ways, or fails alike, and whatever it
has written until then has been written in both.
-/
namespace Parley

namespace Run

variable {σ τ α β : Type}

/-- Whether two computations on related states come to the same result and leave related states. -/
def InStep (rel : σ → τ → Prop) (x : Run σ α) (y : Run τ α) : Prop :=
  ∀ s t, rel s t → (x s).1 = (y t).1 ∧ rel (x s).2 (y t).2

variable {rel : σ → τ → Prop}

theorem inStep_ofExcept (x : Except Failure α) :
    InStep rel (ofExcept x : Run σ α) (ofExcept x : Run τ α) := by
  intro s t related
  rw [ofExcept_apply, ofExcept_apply]
  exact ⟨rfl, related⟩

theorem inStep_pure (a : α) : InStep rel (pure a : Run σ α) (pure a : Run τ α) :=
  inStep_ofExcept (.ok a)

/-- What goes on from one result is in step if the first parts are and the rest is for each
result. -/
theorem inStep_bind {x : Run σ α} {y : Run τ α} {f : α → Run σ β} {g : α → Run τ β}
    (first : InStep rel x y) (later : ∀ a, InStep rel (f a) (g a)) :
    InStep rel (x >>= f) (y >>= g) := by
  intro s t related
  obtain ⟨same, after⟩ := first s t related
  rw [bind_apply, bind_apply]
  cases left : x s with
  | mk result s' =>
    cases right : y t with
    | mk result' t' =>
      rw [left, right] at same after
      cases same
      cases result with
      | error e => exact ⟨rfl, after⟩
      | ok a => exact later a s' t' after

end Run

/-- Whether two ways to hold variables are not to be told apart by reading, and go on so after each
write. -/
structure Scope.InStep {σ τ : Type} (rel : σ → τ → Prop) (left : Scope σ) (right : Scope τ) :
    Prop where
  read : ∀ name s t, rel s t → left.read name s = right.read name t
  write : ∀ name value, Run.InStep rel (left.write name value) (right.write name value)

namespace Expr

variable {σ τ : Type} {rel : σ → τ → Prop} {here : Scope σ} {there : Scope τ}

theorem inStep_binary {op : BinaryOp} {left right : Expr}
    (first : Run.InStep rel (eval here left) (eval there left))
    (second : Run.InStep rel (eval here right) (eval there right)) :
    Run.InStep rel (eval here (binary op left right)) (eval there (binary op left right)) := by
  have both (op : BinaryOp) : Run.InStep rel
      (do
        let a ← eval here left
        let b ← eval here right
        Run.ofExcept (Value.binary op a b))
      (do
        let a ← eval there left
        let b ← eval there right
        Run.ofExcept (Value.binary op a b)) :=
    Run.inStep_bind first fun _ => Run.inStep_bind second fun _ => Run.inStep_ofExcept _
  cases op with
  | and =>
    rw [eval, eval]
    apply Run.inStep_bind first
    intro a
    cases a.truthy
    · exact Run.inStep_pure _
    · exact Run.inStep_bind second fun _ => Run.inStep_pure _
  | or =>
    rw [eval, eval]
    apply Run.inStep_bind first
    intro a
    cases a.truthy
    · exact Run.inStep_bind second fun _ => Run.inStep_pure _
    · exact Run.inStep_pure _
  | _ =>
    rw [eval, eval]
    · exact both _
    all_goals simp

theorem inStep_var (inStep : here.InStep rel there) (name : String) :
    Run.InStep rel (eval here (var name)) (eval there (var name)) := by
  intro s t related
  rw [eval, eval, Run.bind_apply, Run.bind_apply, Run.get_apply, Run.get_apply, Run.andThen_ok,
    Run.andThen_ok, inStep.read name s t related]
  exact ⟨rfl, related⟩

mutual

theorem inStep_eval (inStep : here.InStep rel there) (e : Expr) :
    Run.InStep rel (eval here e) (eval there e) := by
  cases e with
  | literal l =>
    rw [eval, eval]
    exact Run.inStep_pure _
  | var name => exact inStep_var inStep name
  | list items =>
    rw [eval, eval]
    exact Run.inStep_bind (inStep_evalItems inStep items) fun _ => Run.inStep_pure _
  | map entries =>
    rw [eval, eval]
    exact Run.inStep_bind (inStep_evalEntries inStep entries []) fun _ => Run.inStep_pure _
  | unary op operand =>
    rw [eval, eval]
    exact Run.inStep_bind (inStep_eval inStep operand) fun _ => Run.inStep_ofExcept _
  | binary op left right => exact inStep_binary (inStep_eval inStep left) (inStep_eval inStep right)
  | index target position =>
    rw [eval, eval]
    exact Run.inStep_bind (inStep_eval inStep target) fun _ =>
      Run.inStep_bind (inStep_eval inStep position) fun _ => Run.inStep_ofExcept _
  | member target name =>
    rw [eval, eval]
    exact Run.inStep_bind (inStep_eval inStep target) fun _ => Run.inStep_ofExcept _
  | assign name value =>
    rw [eval, eval]
    exact Run.inStep_bind (inStep_eval inStep value) fun result =>
      Run.inStep_bind (inStep.write name result) fun _ => Run.inStep_pure _

theorem inStep_evalItems (inStep : here.InStep rel there) (items : List Expr) :
    Run.InStep rel (evalItems here items) (evalItems there items) := by
  match items with
  | [] =>
    rw [evalItems, evalItems]
    exact Run.inStep_pure _
  | item :: rest =>
    rw [evalItems, evalItems]
    exact Run.inStep_bind (inStep_eval inStep item) fun _ =>
      Run.inStep_bind (inStep_evalItems inStep rest) fun _ => Run.inStep_pure _

theorem inStep_evalEntries (inStep : here.InStep rel there) (entries : List (Expr × Expr))
    (done : List (String × Value)) :
    Run.InStep rel (evalEntries here done entries) (evalEntries there done entries) := by
  match entries with
  | [] =>
    rw [evalEntries, evalEntries]
    exact Run.inStep_pure _
  | (key, item) :: rest =>
    rw [evalEntries, evalEntries]
    apply Run.inStep_bind (inStep_eval inStep key)
    intro k
    cases k with
    | text name =>
      exact Run.inStep_bind (inStep_eval inStep item) fun value => inStep_evalEntries inStep rest _
    | _ => exact Run.inStep_ofExcept (.error _)

end

end Expr
end Parley
