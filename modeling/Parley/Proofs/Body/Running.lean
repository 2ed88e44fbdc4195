import Parley.Body.Run
import Parley.Proofs.Body.Law

/-!
What holds of every step of a running body holds of the whole run. A property of runs that
sequences pass on is shown here once to go from the steps to the body.
-/
namespace Parley

variable {σ : Type}

/-- Looks something up in the variables as they are now. -/
def settle {α : Type} (scope : Scope σ) (f : (String → Option Value) → Except Failure α) :
    Run (Stage σ) α := do
  let lookup ← scope.lookup
  Run.ofExcept (f lookup)

theorem settle_apply {α : Type} (scope : Scope σ)
    (f : (String → Option Value) → Except Failure α) (stage : Stage σ) :
    settle scope f stage = (f fun name => scope.read name stage.vars, stage) :=
  Run.ofExcept_apply (f fun name => scope.read name stage.vars) stage

def showText (scope : Scope σ) (t : Template) : Run (Stage σ) Unit := do
  let resolved ← settle scope t.resolve
  Stage.onOutput (·.addSegment (.text resolved))

def showAction (scope : Scope σ) (a : Action) : Run (Stage σ) Unit := do
  let resolved ← settle scope a.resolve
  Stage.onOutput (·.addCommand (.action resolved))

def showInput (scope : Scope σ) (i : Input) : Run (Stage σ) Unit := do
  let resolved ← settle scope i.resolve
  Stage.onOutput (·.addCommand (.input resolved))

def showReply (scope : Scope σ) (r : Reply) : Run (Stage σ) Unit := do
  let resolved ← settle scope r.resolve
  Stage.onOutput (·.addReply resolved)

theorem Reply.resolve_eq (r : Reply) (lookup : String → Option Value) :
    r.resolve lookup = do
      let statement ← r.statement.mapM (resolveStatement lookup [])
      let commands ← r.commands.mapM (resolveCommand lookup)
      return { r with statement, commands } := by
  unfold Reply.resolve
  cases r.statement with
  | none => rfl
  | some segments => cases run : resolveStatement lookup [] segments <;> simp [run]

/-- A resolved reply is the same choice, with texts and commands settled. -/
theorem Reply.resolve_eq_ok {r shown : Reply} {lookup : String → Option Value}
    (settled : r.resolve lookup = .ok shown) :
    shown.id = r.id ∧ shown.pointer = r.pointer ∧
      r.statement.mapM (resolveStatement lookup []) = .ok shown.statement ∧
      r.commands.mapM (resolveCommand lookup) = .ok shown.commands := by
  rw [resolve_eq] at settled
  obtain ⟨statement, said, settled⟩ := bind_eq_ok_iff.mp settled
  obtain ⟨commands, done, settled⟩ := bind_eq_ok_iff.mp settled
  cases settled
  exact ⟨rfl, rfl, said, done⟩

/-- A property of runs that holds of the steps which parts that obey a law give rise to. -/
structure Body.Law.Passes (law : Body.Law) (scope : Scope σ)
    (holds : (α : Type) → Run (Stage σ) α → Prop) : Prop where
  pure : ∀ (α : Type) (a : α), holds α (pure a)
  bind : ∀ (α β : Type) (x : Run (Stage σ) α) (f : α → Run (Stage σ) β),
    holds α x → (∀ a, holds β (f a)) → holds β (x >>= f)
  text : ∀ t, law.text t → holds Unit (showText scope t)
  action : ∀ a, law.action a → holds Unit (showAction scope a)
  input : ∀ i, law.input i → holds Unit (showInput scope i)
  reply : ∀ r, law.reply r → holds Unit (showReply scope r)
  set : ∀ s, law.set s → holds Value (Stage.onVars (s.expr.eval scope))
  condition : ∀ e, law.condition e → holds Value (Stage.onVars (e.eval scope))
  number : ∀ x, holds Number (Run.ofExcept x)
  draw : holds Number Stage.draw

variable {law : Body.Law} {scope : Scope σ} {holds : (α : Type) → Run (Stage σ) α → Prop}

theorem settle_bind {α β : Type} (scope : Scope σ)
    (f : (String → Option Value) → Except Failure α) (g : α → Run (Stage σ) β) :
    (scope.lookup >>= fun lookup => Run.ofExcept (f lookup) >>= g) = settle scope f >>= g :=
  (Run.bind_assoc _ _ _).symm

theorem firstBeyond_passed (passes : law.Passes scope holds) (limit sum : Number) (number : Nat)
    (weights : List Number) :
    holds Nat ((@Stage.weighing σ).firstBeyond limit sum number weights) := by
  induction weights generalizing sum number with
  | nil => exact passes.pure _ _
  | cons weight rest ih =>
    rw [Weighing.firstBeyond]
    refine passes.bind _ _ _ _ (passes.number _) fun next => ?_
    split
    · exact passes.pure _ _
    · exact ih next (number + 1)

/-- A choice by weight is made of arithmetic and one random number at most. -/
theorem choose_passed (passes : law.Passes scope holds) (weights : List Number) :
    holds Nat ((@Stage.weighing σ).choose Stage.draw weights) := by
  have total : ∀ start, holds Number (weights.foldlM (@Stage.weighing σ).add start) := by
    induction weights with
    | nil => exact fun start => passes.pure _ start
    | cons weight rest ih =>
      intro start
      rw [List.foldlM_cons]
      exact passes.bind _ _ _ _ (passes.number _) ih
  refine passes.bind _ _ _ _ (total _) fun sum => ?_
  split
  · refine passes.bind _ _ _ _ passes.draw fun x => ?_
    exact passes.bind _ _ _ _ (passes.number _)
      fun limit => firstBeyond_passed passes limit _ 0 weights
  · exact passes.pure _ _

theorem runReplies_cons (scope : Scope σ) (r : Reply) (rest : List Reply) :
    runReplies scope (r :: rest) = showReply scope r >>= fun _ => runReplies scope rest := by
  rw [runReplies, settle_bind, showReply, Run.bind_assoc]

theorem runSegments_text (scope : Scope σ) (t : Template) (rest : List (Segment Command)) :
    runSegments scope (.text t :: rest) = showText scope t >>= fun _ => runSegments scope rest := by
  rw [runSegments, settle_bind, showText, Run.bind_assoc]

theorem runReplies_passed (passes : law.Passes scope holds) (replies : List Reply)
    (meet : ∀ r ∈ replies, law.reply r) : holds Unit (runReplies scope replies) := by
  induction replies with
  | nil => exact passes.pure Unit ()
  | cons r rest ih =>
    rw [runReplies_cons]
    exact passes.bind _ _ _ _ (passes.reply r (meet r (by simp)))
      (fun _ => ih fun other member => meet other (by simp [member]))

mutual

theorem Command.run_passed (passes : law.Passes scope holds) (c : Command)
    (meets : c.Meets law) : holds Unit (c.run scope) := by
  cases c with
  | action a =>
    rw [Command.run, settle_bind]
    exact passes.action a meets
  | set s =>
    rw [Command.run]
    exact passes.bind _ _ _ _ (passes.set s meets) (fun _ => passes.pure _ _)
  | choice clauses otherwise =>
    rw [Command.run]
    refine passes.bind _ _ _ _ (runClauses_passed passes clauses meets.2.1) (fun done => ?_)
    cases done
    · exact runOptional_passed passes otherwise meets.2.2
    · exact passes.pure _ _
  | random clauses =>
    rw [Command.run]
    exact passes.bind _ _ _ _ (choose_passed passes _)
      (fun number => runNumbered_passed passes number clauses meets.2)
  | input i =>
    rw [Command.run, settle_bind]
    exact passes.input i meets

theorem runClauses_passed (passes : law.Passes scope holds) (clauses : List IfClause)
    (meet : ClausesMeet law clauses) : holds Bool (runClauses scope clauses) := by
  match clauses with
  | [] =>
    rw [runClauses]
    exact passes.pure _ _
  | ⟨condition, body⟩ :: rest =>
    rw [runClauses]
    refine passes.bind _ _ _ _ (passes.condition condition meet.1) (fun value => ?_)
    cases value.truthy
    · exact runClauses_passed passes rest meet.2.2
    · exact passes.bind _ _ _ _ (body.run_passed passes meet.2.1) (fun _ => passes.pure _ _)

theorem runNumbered_passed (passes : law.Passes scope holds) (number : Nat)
    (clauses : List RandomClause) (meet : WeightedMeet law clauses) :
    holds Unit (runNumbered scope number clauses) := by
  match number, clauses with
  | _, [] =>
    rw [runNumbered]
    exact passes.pure _ _
  | 0, ⟨weight, body⟩ :: rest =>
    rw [runNumbered]
    exact body.run_passed passes meet.2.1
  | number + 1, ⟨weight, body⟩ :: rest =>
    rw [runNumbered]
    exact runNumbered_passed passes number rest meet.2.2

theorem runOptional_passed (passes : law.Passes scope holds) (o : Option Body)
    (meets : OptionMeets law o) : holds Unit (runOptional scope o) := by
  match o with
  | none =>
    rw [runOptional]
    exact passes.pure _ _
  | some body =>
    rw [runOptional]
    exact body.run_passed passes meets

theorem runSegments_passed (passes : law.Passes scope holds) (segments : List (Segment Command))
    (meet : SegmentsMeet law segments) : holds Unit (runSegments scope segments) := by
  match segments with
  | [] =>
    rw [runSegments]
    exact passes.pure _ _
  | .text t :: rest =>
    rw [runSegments_text]
    exact passes.bind _ _ _ _ (passes.text t meet.1)
      (fun _ => runSegments_passed passes rest meet.2)
  | .command c :: rest =>
    rw [runSegments]
    exact passes.bind _ _ _ _ (c.run_passed passes meet.1)
      (fun _ => runSegments_passed passes rest meet.2)

/-- A run of a body has each property that the steps of running it have. -/
theorem Body.run_passed (passes : law.Passes scope holds) (b : Body) (meets : b.Meets law) :
    holds Unit (b.run scope) := by
  match b with
  | ⟨segments, replies⟩ =>
    rw [Body.run]
    exact passes.bind _ _ _ _ (runSegments_passed passes segments meets.2.1)
      (fun _ => runReplies_passed passes replies meets.2.2)

end

end Parley
