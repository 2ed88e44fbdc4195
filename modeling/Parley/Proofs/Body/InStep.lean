import Parley.Body.Run
import Parley.Proofs.Expr.InStep

/-!
Bodies run alike on two ways to hold variables that are in step: they put out the same, draw the
same random numbers and fail alike, with the variables in step at every point where a run can end.
-/
namespace Parley

variable {σ τ α β : Type} {rel : σ → τ → Prop} {here : Scope σ} {there : Scope τ}

/-- Whether two stages have come equally far. -/
structure Stage.Paired (rel : σ → τ → Prop) (a : Stage σ) (b : Stage τ) : Prop where
  vars : rel a.vars b.vars
  random : a.random = b.random
  output : a.output = b.output

namespace Stage

theorem inStep_onVars {x : Run σ α} {y : Run τ α} (inStep : Run.InStep rel x y) :
    Run.InStep (Paired rel) (onVars x) (onVars y) := by
  intro a b paired
  obtain ⟨same, after⟩ := inStep a.vars b.vars paired.vars
  exact ⟨same, after, paired.random, paired.output⟩

theorem inStep_onOutput (f : Body → Body) :
    Run.InStep (Paired rel) (onOutput f) (onOutput f) := by
  intro a b paired
  exact ⟨rfl, paired.vars, paired.random, congrArg f paired.output⟩

theorem inStep_draw : Run.InStep (Paired rel) draw draw := by
  intro a b paired
  have drawn : a.random.next = b.random.next := congrArg RandomSource.next paired.random
  have same : (Except.ok (.binary a.random.next.1) : Except Failure Number) =
      .ok (.binary b.random.next.1) := by rw [drawn]
  exact ⟨same, paired.vars, congrArg Prod.snd drawn, paired.output⟩

theorem inStep_lookup (inStep : here.InStep rel there) :
    Run.InStep (Paired rel) here.lookup there.lookup := by
  intro a b paired
  have same : (fun name => here.read name a.vars) = fun name => there.read name b.vars :=
    funext fun name => inStep.read name a.vars b.vars paired.vars
  exact ⟨congrArg Except.ok same, paired⟩

theorem inStep_firstBeyond (limit sum : Number) (number : Nat) (weights : List Number) :
    Run.InStep (Paired rel) (weighing.firstBeyond limit sum number weights)
      (weighing.firstBeyond limit sum number weights) := by
  induction weights generalizing sum number with
  | nil => exact Run.inStep_pure _
  | cons weight rest ih =>
    rw [Weighing.firstBeyond, Weighing.firstBeyond]
    apply Run.inStep_bind (Run.inStep_ofExcept (sum.add weight))
    intro next
    by_cases beyond : limit.compare? next == some .lt
    · simp only [weighing, beyond, if_true]
      exact Run.inStep_pure number
    · simp only [weighing, beyond]
      exact ih next (number + 1)

theorem inStep_total (start : Number) (weights : List Number) :
    Run.InStep (Paired rel) (weights.foldlM weighing.add start)
      (weights.foldlM weighing.add start) := by
  induction weights generalizing start with
  | nil => exact Run.inStep_pure start
  | cons weight rest ih =>
    rw [List.foldlM_cons, List.foldlM_cons]
    exact Run.inStep_bind (Run.inStep_ofExcept _) ih

theorem inStep_choose (weights : List Number) :
    Run.InStep (Paired rel) (weighing.choose draw weights) (weighing.choose draw weights) := by
  apply Run.inStep_bind (inStep_total _ weights)
  intro total
  have positive : (weighing (σ := σ)).isPositive total = (weighing (σ := τ)).isPositive total := rfl
  rw [positive]
  split
  · apply Run.inStep_bind inStep_draw
    intro x
    apply Run.inStep_bind (Run.inStep_ofExcept _)
    intro limit
    exact inStep_firstBeyond limit _ 0 weights
  · exact Run.inStep_pure 0

end Stage

open Stage in
/-- What is put out after a look at the variables. -/
theorem inStep_shown (inStep : here.InStep rel there)
    (f : (String → Option Value) → Except Failure α) (g : α → Body → Body) :
    Run.InStep (Paired rel)
      (do
        let resolved ← Run.ofExcept (f (← here.lookup))
        onOutput (g resolved))
      (do
        let resolved ← Run.ofExcept (f (← there.lookup))
        onOutput (g resolved)) :=
  Run.inStep_bind (inStep_lookup inStep) fun _ =>
    Run.inStep_bind (Run.inStep_ofExcept _) fun _ => inStep_onOutput _

theorem inStep_runReplies (inStep : here.InStep rel there) (replies : List Reply) :
    Run.InStep (Stage.Paired rel) (runReplies here replies) (runReplies there replies) := by
  induction replies with
  | nil => exact Run.inStep_pure ()
  | cons r rest ih =>
    rw [runReplies, runReplies]
    exact Run.inStep_bind (Stage.inStep_lookup inStep) fun _ =>
      Run.inStep_bind (Run.inStep_ofExcept _) fun _ =>
        Run.inStep_bind (Stage.inStep_onOutput _) fun _ => ih

mutual

theorem Command.inStep_run (inStep : here.InStep rel there) (c : Command) :
    Run.InStep (Stage.Paired rel) (c.run here) (c.run there) := by
  cases c with
  | action a =>
    rw [Command.run, Command.run]
    exact inStep_shown inStep a.resolve fun resolved => (·.addCommand (.action resolved))
  | set s =>
    rw [Command.run, Command.run]
    exact Run.inStep_bind (Stage.inStep_onVars (Expr.inStep_eval inStep s.expr)) fun _ =>
      Run.inStep_pure ()
  | choice clauses otherwise =>
    rw [Command.run, Command.run]
    apply Run.inStep_bind (inStep_runClauses inStep clauses)
    intro done
    cases done
    · exact inStep_runOptional inStep otherwise
    · exact Run.inStep_pure ()
  | random clauses =>
    rw [Command.run, Command.run]
    exact Run.inStep_bind (Stage.inStep_choose _) fun number =>
      inStep_runNumbered inStep number clauses
  | input i =>
    rw [Command.run, Command.run]
    exact inStep_shown inStep i.resolve fun resolved => (·.addCommand (.input resolved))

theorem inStep_runClauses (inStep : here.InStep rel there) (clauses : List IfClause) :
    Run.InStep (Stage.Paired rel) (runClauses here clauses) (runClauses there clauses) := by
  match clauses with
  | [] =>
    rw [runClauses, runClauses]
    exact Run.inStep_pure false
  | ⟨condition, body⟩ :: rest =>
    rw [runClauses, runClauses]
    apply Run.inStep_bind (Stage.inStep_onVars (Expr.inStep_eval inStep condition))
    intro value
    cases value.truthy
    · exact inStep_runClauses inStep rest
    · exact Run.inStep_bind (body.inStep_run inStep) fun _ => Run.inStep_pure true

theorem inStep_runNumbered (inStep : here.InStep rel there) (number : Nat)
    (clauses : List RandomClause) :
    Run.InStep (Stage.Paired rel) (runNumbered here number clauses)
      (runNumbered there number clauses) := by
  match number, clauses with
  | _, [] =>
    rw [runNumbered, runNumbered]
    exact Run.inStep_pure ()
  | 0, ⟨weight, body⟩ :: rest =>
    rw [runNumbered, runNumbered]
    exact body.inStep_run inStep
  | number + 1, ⟨weight, body⟩ :: rest =>
    rw [runNumbered, runNumbered]
    exact inStep_runNumbered inStep number rest

theorem inStep_runOptional (inStep : here.InStep rel there) (o : Option Body) :
    Run.InStep (Stage.Paired rel) (runOptional here o) (runOptional there o) := by
  match o with
  | none =>
    rw [runOptional, runOptional]
    exact Run.inStep_pure ()
  | some body =>
    rw [runOptional, runOptional]
    exact body.inStep_run inStep

theorem inStep_runSegments (inStep : here.InStep rel there) (segments : List (Segment Command)) :
    Run.InStep (Stage.Paired rel) (runSegments here segments) (runSegments there segments) := by
  match segments with
  | [] =>
    rw [runSegments, runSegments]
    exact Run.inStep_pure ()
  | .text t :: rest =>
    rw [runSegments, runSegments]
    exact Run.inStep_bind (Stage.inStep_lookup inStep) fun _ =>
      Run.inStep_bind (Run.inStep_ofExcept _) fun _ =>
        Run.inStep_bind (Stage.inStep_onOutput _) fun _ => inStep_runSegments inStep rest
  | .command c :: rest =>
    rw [runSegments, runSegments]
    exact Run.inStep_bind (c.inStep_run inStep) fun _ => inStep_runSegments inStep rest

theorem Body.inStep_run (inStep : here.InStep rel there) (b : Body) :
    Run.InStep (Stage.Paired rel) (b.run here) (b.run there) := by
  match b with
  | ⟨segments, replies⟩ =>
    rw [Body.run, Body.run]
    exact Run.inStep_bind (inStep_runSegments inStep segments) fun _ =>
      inStep_runReplies inStep replies

end

/-- A body that runs into an empty output, from related variables and the same random numbers. -/
theorem Body.inStep_runFresh (inStep : here.InStep rel there) (b : Body) (trimmed : Bool) {s : σ}
    {t : τ} (related : rel s t) (random : RandomSource) :
    (b.runFresh here trimmed s random).1 = (b.runFresh there trimmed t random).1 ∧
      Stage.Paired rel (b.runFresh here trimmed s random).2
        (b.runFresh there trimmed t random).2 := by
  obtain ⟨same, paired⟩ := b.inStep_run inStep ⟨s, random, .empty⟩ ⟨t, random, .empty⟩
    ⟨related, rfl, rfl⟩
  unfold runFresh
  cases left : b.run here ⟨s, random, .empty⟩ with
  | mk result stage =>
    cases right : b.run there ⟨t, random, .empty⟩ with
    | mk result' stage' =>
      rw [left, right] at same paired
      cases same
      cases result with
      | error e => exact ⟨rfl, paired⟩
      | ok u =>
        cases trimmed
        · exact ⟨rfl, paired⟩
        · exact ⟨rfl, paired.vars, paired.random, congrArg Body.trim paired.output⟩

end Parley
