import Parley.Conversation.Host
import Parley.Proofs.Body.Influence
import Parley.Proofs.Conversation.Apart
import Parley.Proofs.Conversation.Pointers
import Parley.Proofs.Expr.Frame

/-!
What a turn assigns. The assignments that are made before a turn fails stay in the store, one after
the other and each at the time of the event, and nothing else in it changes: a turn that fails takes
nothing back.
-/
namespace Parley

namespace Conversation

variable (c : Conversation) (vars : Bindings)

end Conversation

namespace Host

end Host

open LiveStore

theorem Scope.recorded_lawful : Scope.recorded.Lawful fun _ => True where
  writes _ _ _ _ := rfl
  stays _ _ _ _ := trivial
  read_self name value s _ := Assoc.get?_insert_self name value s.1
  read_other _ value _ s _ other := Assoc.get?_insert_of_ne other value s.1

theorem Scope.recorded_inStep : Scope.recorded.InStep (fun s t => s.1 = t) Scope.plain where
  read name _ _ related := congrArg (Assoc.get? name) related
  write name value _ _ related := ⟨rfl, congrArg (Assoc.insert name value) related⟩

/-- An assignment of a script is recorded if its value can be told, and nothing else is. -/
theorem Expr.eval_recorded {e : Expr} (quiet : e.assigns = false) (name : String) (vars : Bindings)
    (made : List (String × Value)) :
    (assign name e).eval .recorded (vars, made) =
      match (e.eval .plain vars).1 with
      | .ok value => (.ok value, Assoc.insert name value vars, made ++ [(name, value)])
      | .error failure => (.error failure, vars, made) := by
  have unchanged : (e.eval .recorded (vars, made)).2 = (vars, made) :=
    Scope.recorded_lawful.eval_of_not_assigns quiet trivial
  obtain ⟨same, _⟩ := Expr.inStep_eval Scope.recorded_inStep e (vars, made) vars rfl
  rw [eval, Run.bind_apply, ← same]
  generalize e.eval .recorded (vars, made) = run at unchanged
  obtain ⟨result, after⟩ := run
  cases unchanged
  cases result <;> rfl

namespace Talking

end Talking

namespace Talking

variable {c : Conversation} {store : LiveStore} (harmless : store.Harmless) (time : Option Instant)
include harmless

end Talking

namespace Hosting

variable {α : Type} {base h : Host} {store : LiveStore} {number : Nat} {c : Conversation}

/-- Whether a host has a conversation under a number and for the rest knows what it knew before. -/
structure Knows (base : Host) (number : Nat) (c : Conversation) (h : Host) : Prop where
  there : h.conversations[number]? = some c
  dialogues : h.dialogues = base.dialogues
  library : h.library = base.library
  random : h.random = base.random
  notify : h.notify = base.notify

theorem Knows.refl (there : h.conversations[number]? = some c) : Knows h number c h :=
  ⟨there, rfl, rfl, rfl, rfl⟩

theorem within_apply (there : h.conversations[number]? = some c) (action : Talking α) :
    within number action ⟨h, store⟩ =
      ((action ⟨c, store⟩).1, ⟨{ h with
        conversations := h.conversations.set number (action ⟨c, store⟩).2.conversation },
          (action ⟨c, store⟩).2.store⟩) := by
  rw [within, Run.bind_apply, Run.get_apply, Run.andThen_ok]
  simp only [there]
  have outcome : action.run.run ⟨c, store⟩ = action ⟨c, store⟩ := rfl
  rw [outcome]
  cases action ⟨c, store⟩ with
  | mk result talk => cases result <;> rfl

theorem within_of_unknown (unknown : h.conversations[number]? = none) (action : Talking α) :
    within number action ⟨h, store⟩ = (.error .noConversation, ⟨h, store⟩) := by
  rw [within, Run.bind_apply, Run.get_apply, Run.andThen_ok]
  simp only [unknown]
  rfl

theorem find?_apply (h : Host) (name : String) :
    (h.find? name).2.random = h.random ∧ (h.find? name).2.notify = h.notify := by
  unfold Host.find?
  split
  · exact ⟨rfl, rfl⟩
  · split <;> exact ⟨rfl, rfl⟩

theorem prepare_apply (name : String) (h : Host) (store : LiveStore) :
    prepare name none ⟨h, store⟩ =
      (match (h.find? name).1 with
        | some d => .ok (.ofDialogue d h.random h.notify)
        | none => .error (.execution (.noDialogue name)), ⟨(h.find? name).2, store⟩) := by
  obtain ⟨random, notify⟩ := find?_apply h name
  rw [prepare, find, Run.bind_apply, Run.bind_apply]
  have found : onHost (·.find? name) ⟨h, store⟩ =
      (.ok (h.find? name).1, ⟨(h.find? name).2, store⟩) := rfl
  rw [found, Run.andThen_ok]
  cases (h.find? name).1 with
  | none => rfl
  | some d =>
    have prepared : Run.andThen (fun dialogue : Dialogue => do
          let host := (← get).host
          return .ofDialogue dialogue host.random ((none : Option Bool).getD host.notify))
        (.ok d, (⟨(h.find? name).2, store⟩ : Scene)) =
          ((.ok (.ofDialogue d (h.find? name).2.random (h.find? name).2.notify) :
            Except TalkError Conversation), ⟨(h.find? name).2, store⟩) := rfl
    rw [random, notify] at prepared
    exact prepared

theorem launch_apply (name : String) (node : Option String) (time : Option Instant) (h : Host)
    (store : LiveStore) :
    launch name node time ⟨h, store⟩ =
      match (h.find? name).1 with
      | some d =>
          let outcome := Talking.start node time ⟨.ofDialogue d h.random h.notify, store⟩
          (outcome.1.map fun _ => outcome.2.conversation, ⟨(h.find? name).2, outcome.2.store⟩)
      | none => (.error (.execution (.noDialogue name)), ⟨(h.find? name).2, store⟩) := by
  rw [launch, Run.bind_apply, prepare_apply]
  cases (h.find? name).1 with
  | none => rfl
  | some d =>
    have started (c : Conversation) :
        (Talking.start node time).run.run ⟨c, store⟩ = Talking.start node time ⟨c, store⟩ := rfl
    dsimp only
    rw [Run.andThen_ok, Run.bind_apply, Run.get_apply, Run.andThen_ok]
    dsimp only
    rw [started]
    cases Talking.start node time ⟨.ofDialogue d h.random h.notify, store⟩ with
    | mk result talk => cases result <;> rfl

/-- What is left to do when the assignments of a reply have been made. -/
def follow (number : Nat) (reply : Int) (statement : String) (time : Option Instant)
    (pointer : Pointer) : Hosting Nat := do
  publish number (.replied reply statement pointer)
  match pointer with
  | .external _ node dialogue =>
      let following ← launch dialogue (some node) time
      within number Talking.finish
      publish number .ended
      welcome following
  | .internal _ =>
      match ← within number (Talking.advance pointer time) with
      | none => publish number .ended
      | some node => publish number (.entered node.title)
      return number

theorem select_eq (number : Nat) (reply : Int) (time : Option Instant) :
    select number reply time = (do
      let c ← conversation number
      let statement ← within number (.ofExcept (c.statement (← get).store.store reply))
      let pointer ← within number (Talking.resolveReply reply time)
      follow number reply statement time pointer) := rfl

end Hosting

end Parley
