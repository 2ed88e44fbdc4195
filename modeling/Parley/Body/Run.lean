import Parley.Body.Model
import Parley.Expr.Eval
import Parley.Random.Choice
import Parley.Random.Source

/-!
Running bodies. What a body comes to is added to an output, in which variables are replaced by the
texts of their values, clauses by the body that was chosen, and assignments by nothing; replies are
resolved when all the segments of their body have run.
-/
namespace Parley

/-- Variables, random numbers, and what has been put out so far. -/
structure Stage (σ : Type) where
  vars : σ
  random : RandomSource
  output : Body

namespace Number

def compare? : Number → Number → Option Ordering
  | whole a, whole b => some (compare a b)
  | whole a, binary b => Binary64.compareInt? a b
  | binary a, whole b => (Binary64.compareInt? b a).map Ordering.swap
  | binary a, binary b => a.compare? b

end Number

namespace Stage

variable {σ : Type}

/-- Does something to the variables alone. -/
def onVars {α : Type} (run : Run σ α) : Run (Stage σ) α := fun stage =>
  let (result, vars) := run stage.vars
  (result, { stage with vars })

/-- Does something to the output alone. -/
def onOutput (f : Body → Body) : Run (Stage σ) Unit :=
  modify fun stage => { stage with output := f stage.output }

def draw : Run (Stage σ) Number := do
  let stage ← get
  let (x, random) := stage.random.next
  set { stage with random }
  return .binary x

/-- How weights are added, stretched and compared in a running body. -/
def weighing : Weighing (Run (Stage σ)) Number where
  nothing := .whole 0
  origin := .binary (.zero false)
  add a b := Run.ofExcept (a.add b)
  stretch x total := Run.ofExcept (x.mul total)
  isPositive total := total.compare? (.whole 0) != some .lt && total.compare? (.whole 0) != some .eq
  below a b := a.compare? b == some .lt

end Stage

namespace Input

def resolveTime (lookup : String → Option Value) :
    Option Template → Except Failure (Option Template)
  | none => .ok none
  | some t => do
      let text ← t.evaluate lookup
      match LocalTime.normalize? text with
      | some time => .ok (some (.ofText time))
      | none => .error (.evaluation (.invalidLocalTime text))

/-- An input with the texts of its options and times settled. -/
def resolve (i : Input) (lookup : String → Option Value) : Except Failure Input :=
  match i.field with
  | .choices options => do
      let options ← options.mapM fun o => return { o with label := ← o.label.resolve lookup }
      return { i with field := .choices options }
  | .time target granularity times => do
      let start ← resolveTime lookup times.start
      let least ← resolveTime lookup times.least
      let most ← resolveTime lookup times.most
      return { i with field := .time target granularity ⟨start, least, most⟩ }
  | _ => .ok i

end Input

namespace Reply

def resolveCommand (lookup : String → Option Value) : ReplyCommand → Except Failure ReplyCommand
  | .action a => (a.resolve lookup).map .action
  | .set s => .ok (.set s)

/-- Adds the resolved segments of a statement to those before them. -/
def resolveStatement (lookup : String → Option Value) (done : List (Segment Input)) :
    List (Segment Input) → Except Failure (List (Segment Input))
  | [] => .ok done
  | .text t :: rest => do
      resolveStatement lookup (Segment.push done (.text (← t.resolve lookup))) rest
  | .command i :: rest => do
      resolveStatement lookup (Segment.pushCommand done (← i.resolve lookup)) rest

/-- A reply with its texts settled. Its assignments stay as they are. -/
def resolve (r : Reply) (lookup : String → Option Value) : Except Failure Reply := do
  let statement ← match r.statement with
    | some segments => do
        let resolved ← resolveStatement lookup [] segments
        pure (some resolved)
    | none => pure none
  return { r with statement, commands := ← r.commands.mapM (resolveCommand lookup) }

end Reply

variable {σ : Type}

/-- The values of the variables as they are now. -/
def Scope.lookup (scope : Scope σ) : Run (Stage σ) (String → Option Value) := do
  let stage ← get
  return fun name => scope.read name stage.vars

def runReplies (scope : Scope σ) : List Reply → Run (Stage σ) Unit
  | [] => pure ()
  | r :: rest => do
      let resolved ← Run.ofExcept (r.resolve (← scope.lookup))
      Stage.onOutput (·.addReply resolved)
      runReplies scope rest

mutual

def Command.run (scope : Scope σ) : Command → Run (Stage σ) Unit
  | .action a => do
      let resolved ← Run.ofExcept (a.resolve (← scope.lookup))
      Stage.onOutput (·.addCommand (.action resolved))
  | .set s => do
      let _ ← Stage.onVars (s.expr.eval scope)
      return ()
  | .choice clauses otherwise => do
      if !(← runClauses scope clauses) then runOptional scope otherwise
  | .random clauses => do
      let chosen ← Stage.weighing.choose Stage.draw (clauses.map (·.weight))
      runNumbered scope chosen clauses
  | .input i => do
      let resolved ← Run.ofExcept (i.resolve (← scope.lookup))
      Stage.onOutput (·.addCommand (.input resolved))

/-- Runs the first clause whose condition holds and tells whether there is one. -/
def runClauses (scope : Scope σ) : List IfClause → Run (Stage σ) Bool
  | [] => return false
  | ⟨condition, body⟩ :: rest => do
      let value ← Stage.onVars (condition.eval scope)
      if value.truthy then
        body.run scope
        return true
      else runClauses scope rest

def runNumbered (scope : Scope σ) : Nat → List RandomClause → Run (Stage σ) Unit
  | _, [] => pure ()
  | 0, ⟨_, body⟩ :: _ => body.run scope
  | number + 1, _ :: rest => runNumbered scope number rest

def runOptional (scope : Scope σ) : Option Body → Run (Stage σ) Unit
  | none => pure ()
  | some body => body.run scope

def runSegments (scope : Scope σ) : List (Segment Command) → Run (Stage σ) Unit
  | [] => pure ()
  | .text t :: rest => do
      let resolved ← Run.ofExcept (t.resolve (← scope.lookup))
      Stage.onOutput (·.addSegment (.text resolved))
      runSegments scope rest
  | .command c :: rest => do
      c.run scope
      runSegments scope rest

/-- Runs a body and adds what it comes to to the output. -/
def Body.run (scope : Scope σ) : Body → Run (Stage σ) Unit
  | ⟨segments, replies⟩ => do
      runSegments scope segments
      runReplies scope replies

end

/-- Runs a body into an empty output, without the blanks at both ends of it if asked for. What has
been put out by a run that fails stays as it is. -/
def Body.runFresh (scope : Scope σ) (body : Body) (trimmed : Bool) (vars : σ)
    (random : RandomSource) : Except Failure Unit × Stage σ :=
  let (result, stage) := body.run scope ⟨vars, random, .empty⟩
  match result with
  | .ok () => (.ok (), if trimmed then { stage with output := stage.output.trim } else stage)
  | .error e => (.error e, stage)

end Parley
