import Parley.Proofs.Outcome

/-!
What a computation on variables depends on and what it changes. Two runs that start with the same
values of what is read make the same writes, one after the other, and come to the same result.
-/
namespace Parley

namespace Scope

variable {σ : Type} (scope : Scope σ)

/-- The state after some writes. -/
def perform (writes : List (String × Value)) (s : σ) : σ :=
  writes.foldl (fun s (name, value) => (scope.write name value s).2) s

/-- Whether a scope works as a map of names to values, as long as its state is steady: a write
succeeds and changes what is read under its name, and nothing else. -/
structure Lawful (steady : σ → Prop) : Prop where
  writes : ∀ name value s, steady s → (scope.write name value s).1 = .ok ()
  stays : ∀ name value s, steady s → steady (scope.write name value s).2
  read_self : ∀ name value s, steady s →
    scope.read name (scope.write name value s).2 = some value
  read_other : ∀ name value other s, steady s → other ≠ name →
    scope.read other (scope.write name value s).2 = scope.read other s

/-- Whether two states give the same values to some names, or none in both. -/
def Agree (names : List String) (s t : σ) : Prop :=
  ∀ name ∈ names, scope.read name s = scope.read name t

theorem perform_append (first later : List (String × Value)) (s : σ) :
    scope.perform (first ++ later) s = scope.perform later (scope.perform first s) := by
  simp [perform]

variable {scope} {steady : σ → Prop} (lawful : scope.Lawful steady)
include lawful

theorem Lawful.steady_perform {writes : List (String × Value)} {s : σ} (calm : steady s) :
    steady (scope.perform writes s) := by
  induction writes generalizing s with
  | nil => exact calm
  | cons w rest ih => exact ih (lawful.stays w.1 w.2 s calm)

/-- What is not written keeps its value. -/
theorem Lawful.read_perform_other {writes : List (String × Value)} {s : σ} (calm : steady s)
    {name : String} (other : ∀ w ∈ writes, w.1 ≠ name) :
    scope.read name (scope.perform writes s) = scope.read name s := by
  induction writes generalizing s with
  | nil => rfl
  | cons w rest ih =>
    have later := ih (lawful.stays w.1 w.2 s calm) (fun v member => other v (by simp [member]))
    have kept := lawful.read_other w.1 w.2 name s calm (Ne.symm (other w (by simp)))
    exact later.trans kept

/-- The same writes make two states agree on what they write and keep them in agreement on the
rest. -/
theorem Lawful.read_perform_eq {writes : List (String × Value)} {s t : σ} (calm : steady s)
    (calm' : steady t) {name : String}
    (same : (∃ w ∈ writes, w.1 = name) ∨ scope.read name s = scope.read name t) :
    scope.read name (scope.perform writes s) = scope.read name (scope.perform writes t) := by
  induction writes generalizing s t with
  | nil =>
    rcases same with ⟨w, none, _⟩ | same
    · cases none
    · exact same
  | cons w rest ih =>
    apply ih (lawful.stays w.1 w.2 s calm) (lawful.stays w.1 w.2 t calm')
    by_cases hit : name = w.1
    · right
      rw [hit, lawful.read_self _ _ s calm, lawful.read_self _ _ t calm']
    · rcases same with ⟨v, member, named⟩ | same
      · rcases List.mem_cons.mp member with rfl | later
        · exact (hit named.symm).elim
        · exact .inl ⟨v, later, named⟩
      · right
        rw [lawful.read_other _ _ name s calm hit, lawful.read_other _ _ name t calm' hit, same]

theorem Lawful.agree_perform {names : List String} {writes : List (String × Value)} {s t : σ}
    (calm : steady s) (calm' : steady t) (agree : scope.Agree names s t) :
    scope.Agree names (scope.perform writes s) (scope.perform writes t) :=
  fun name member => lawful.read_perform_eq calm calm' (.inr (agree name member))

end Scope

namespace Run

variable {σ α β : Type}

/-- Whether a run depends on some names alone and writes to no others than some: from states that
agree on what is read it comes to one result by the same writes. -/
def Confined (scope : Scope σ) (steady : σ → Prop) (reads writes : List String)
    (m : Run σ α) : Prop :=
  ∀ s t, steady s → steady t → scope.Agree reads s t →
    ∃ (made : List (String × Value)) (result : Except Failure α),
      (∀ w ∈ made, w.1 ∈ writes) ∧ m s = (result, scope.perform made s) ∧
        m t = (result, scope.perform made t)

variable {scope : Scope σ} {steady : σ → Prop} {reads writes : List String}

theorem confined_pure (a : α) : Confined scope steady reads writes (pure a : Run σ α) :=
  fun _ _ _ _ _ => ⟨[], .ok a, by simp, rfl, rfl⟩

theorem confined_ofExcept (x : Except Failure α) :
    Confined scope steady reads writes (ofExcept x : Run σ α) := by
  intro s t _ _ _
  exact ⟨[], x, by simp, ofExcept_apply x s, ofExcept_apply x t⟩

theorem confined_bind (lawful : scope.Lawful steady) {x : Run σ α} {f : α → Run σ β}
    (first : Confined scope steady reads writes x)
    (later : ∀ a, Confined scope steady reads writes (f a)) :
    Confined scope steady reads writes (x >>= f) := by
  intro s t calm calm' agree
  obtain ⟨made, result, among, left, right⟩ := first s t calm calm' agree
  cases result with
  | error e => exact ⟨made, .error e, among, by rw [bind_apply, left]; rfl,
      by rw [bind_apply, right]; rfl⟩
  | ok a =>
    obtain ⟨more, last, among', left', right'⟩ := later a _ _ (lawful.steady_perform calm)
      (lawful.steady_perform calm') (lawful.agree_perform calm calm' agree)
    refine ⟨made ++ more, last, ?_, ?_, ?_⟩
    · intro w member
      rcases List.mem_append.mp member with early | late
      · exact among w early
      · exact among' w late
    · rw [bind_apply, left, andThen_ok, left', scope.perform_append]
    · rw [bind_apply, right, andThen_ok, right', scope.perform_append]

theorem confined_write (lawful : scope.Lawful steady) {name : String} (value : Value)
    (member : name ∈ writes) : Confined scope steady reads writes (scope.write name value) := by
  intro s t calm calm' _
  refine ⟨[(name, value)], .ok (), by simpa using member, ?_, ?_⟩
  · exact Prod.ext (lawful.writes name value s calm) rfl
  · exact Prod.ext (lawful.writes name value t calm') rfl

theorem confined_read {name : String} (member : name ∈ reads) :
    Confined scope steady reads writes
      (do return ((scope.read name (← get)).getD .null) : Run σ Value) := by
  intro s t _ _ agree
  refine ⟨[], .ok ((scope.read name s).getD .null), by simp, rfl, ?_⟩
  rw [agree name member]
  rfl

end Run

namespace Expr

variable {σ : Type} {scope : Scope σ} {steady : σ → Prop} {reads writes : List String}

def namesOfItems (items : List Expr) : List String := (nodesOfItems items).filterMap ownName?

def namesOfEntries (entries : List (Expr × Expr)) : List String :=
  (nodesOfEntries entries).filterMap ownName?

def targetsOfItems (items : List Expr) : List String :=
  ((nodesOfItems items).filter isAssign).filterMap ownName?

def targetsOfEntries (entries : List (Expr × Expr)) : List String :=
  ((nodesOfEntries entries).filter isAssign).filterMap ownName?

theorem targets_of_not_assigns {e : Expr} (none : e.assigns = false) : e.targets = [] := by
  have no_assign : e.nodes.filter isAssign = [] := by
    rw [List.filter_eq_nil_iff]
    simpa [assigns] using none
  rw [targets, no_assign]
  rfl

/-- The evaluation of an operator is confined as its operands are, whichever of them it needs. -/
theorem confined_binary (lawful : scope.Lawful steady) {op : BinaryOp} {left right : Expr}
    (first : Run.Confined scope steady reads writes (eval scope left))
    (second : Run.Confined scope steady reads writes (eval scope right)) :
    Run.Confined scope steady reads writes (eval scope (binary op left right)) := by
  have both (op : BinaryOp) : Run.Confined scope steady reads writes (do
      let a ← eval scope left
      let b ← eval scope right
      Run.ofExcept (Value.binary op a b)) :=
    Run.confined_bind lawful first fun _ =>
      Run.confined_bind lawful second fun _ => Run.confined_ofExcept _
  cases op with
  | and =>
    rw [eval]
    refine Run.confined_bind lawful first fun a => ?_
    cases a.truthy
    · exact Run.confined_pure _
    · exact Run.confined_bind lawful second fun _ => Run.confined_pure _
  | or =>
    rw [eval]
    refine Run.confined_bind lawful first fun a => ?_
    cases a.truthy
    · exact Run.confined_bind lawful second fun _ => Run.confined_pure _
    · exact Run.confined_pure _
  | _ => rw [eval] <;> first | exact both _ | simp

/-- An assignment is confined as its value is, to the name that it assigns to besides. -/
theorem confined_assign (lawful : scope.Lawful steady) {name : String} {value : Expr}
    (first : Run.Confined scope steady reads writes (eval scope value)) (member : name ∈ writes) :
    Run.Confined scope steady reads writes (eval scope (assign name value)) := by
  rw [eval]
  exact Run.confined_bind lawful first fun result =>
    Run.confined_bind lawful (Run.confined_write lawful result member) fun _ => Run.confined_pure _

mutual

/-- Evaluation depends on the names in an expression and writes to those that it assigns to. -/
theorem confined_eval (lawful : scope.Lawful steady) (e : Expr) (names : e.names ⊆ reads)
    (targets : e.targets ⊆ writes) :
    Run.Confined scope steady reads writes (eval scope e) := by
  cases e with
  | literal l =>
    rw [eval]
    exact Run.confined_pure _
  | var name =>
    rw [eval]
    exact Run.confined_read (names (by simp [Expr.names, nodes, ownName?]))
  | list items =>
    rw [eval]
    exact Run.confined_bind lawful (confined_evalItems lawful items names targets)
      fun _ => Run.confined_pure _
  | map entries =>
    rw [eval]
    exact Run.confined_bind lawful (confined_evalEntries lawful entries [] names targets)
      fun _ => Run.confined_pure _
  | unary op operand =>
    rw [eval]
    exact Run.confined_bind lawful (confined_eval lawful operand names targets)
      fun _ => Run.confined_ofExcept _
  | binary op left right =>
    simp only [Expr.names, Expr.targets, nodes, List.filterMap_cons, List.filter_cons, ownName?,
      isAssign, Bool.false_eq_true, ↓reduceIte, List.filter_append, List.filterMap_append,
      List.append_subset] at names targets
    exact confined_binary lawful (confined_eval lawful left names.1 targets.1)
      (confined_eval lawful right names.2 targets.2)
  | index target position =>
    simp only [Expr.names, Expr.targets, nodes, List.filterMap_cons, List.filter_cons, ownName?,
      isAssign, Bool.false_eq_true, ↓reduceIte, List.filter_append, List.filterMap_append,
      List.append_subset] at names targets
    rw [eval]
    exact Run.confined_bind lawful (confined_eval lawful target names.1 targets.1) fun _ =>
      Run.confined_bind lawful (confined_eval lawful position names.2 targets.2) fun _ =>
        Run.confined_ofExcept _
  | member target name =>
    rw [eval]
    exact Run.confined_bind lawful (confined_eval lawful target names targets)
      fun _ => Run.confined_ofExcept _
  | assign name value =>
    simp only [Expr.names, Expr.targets, nodes, List.filterMap_cons, List.filter_cons, ownName?,
      isAssign, List.cons_subset, ↓reduceIte] at names targets
    exact confined_assign lawful (confined_eval lawful value names.2 targets.2) targets.1

theorem confined_evalItems (lawful : scope.Lawful steady) (items : List Expr)
    (names : namesOfItems items ⊆ reads) (targets : targetsOfItems items ⊆ writes) :
    Run.Confined scope steady reads writes (evalItems scope items) := by
  match items with
  | [] =>
    rw [evalItems]
    exact Run.confined_pure _
  | item :: rest =>
    simp only [namesOfItems, targetsOfItems, nodesOfItems, List.filter_append,
      List.filterMap_append, List.append_subset] at names targets
    rw [evalItems]
    exact Run.confined_bind lawful (confined_eval lawful item names.1 targets.1) fun _ =>
      Run.confined_bind lawful (confined_evalItems lawful rest names.2 targets.2) fun _ =>
        Run.confined_pure _

theorem confined_evalEntries (lawful : scope.Lawful steady) (entries : List (Expr × Expr))
    (done : List (String × Value)) (names : namesOfEntries entries ⊆ reads)
    (targets : targetsOfEntries entries ⊆ writes) :
    Run.Confined scope steady reads writes (evalEntries scope done entries) := by
  match entries with
  | [] =>
    rw [evalEntries]
    exact Run.confined_pure _
  | (key, item) :: rest =>
    simp only [namesOfEntries, targetsOfEntries, nodesOfEntries, List.filter_append,
      List.filterMap_append, List.append_subset] at names targets
    rw [evalEntries]
    refine Run.confined_bind lawful (confined_eval lawful key names.1.1 targets.1.1) fun k => ?_
    cases k with
    | text name =>
      exact Run.confined_bind lawful (confined_eval lawful item names.1.2 targets.1.2) fun value =>
        confined_evalEntries lawful rest _ names.2 targets.2
    | _ => exact Run.confined_ofExcept (.error _)

end

/-- The evaluation of an expression without assignments writes nothing. -/
theorem confined_eval_of_not_assigns (lawful : scope.Lawful steady) {e : Expr}
    (quiet : e.assigns = false) (names : e.names ⊆ reads) :
    Run.Confined scope steady reads writes (eval scope e) := by
  refine confined_eval lawful e names ?_
  rw [targets_of_not_assigns quiet]
  exact List.nil_subset _

end Expr
end Parley
