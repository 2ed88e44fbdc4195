import Parley.Conversation.Basic
import Parley.Proofs.Outcome

/-!
What each turn of a conversation comes to, as one equation in terms of the run behind it.
-/
namespace Parley

namespace Conversation

variable {c : Conversation}

theorem findNode_eq_ok_iff {id : String} {n : Node} :
    c.findNode id = .ok n ↔ c.dialogue.node? id = some n := by
  unfold findNode
  cases c.dialogue.node? id <;> simp

theorem findReply_eq_ok_iff {id : Int} {r : Reply} :
    c.findReply id = .ok r ↔ ∃ n, c.node = some n ∧ n.body.findReply? id = some r := by
  unfold findReply
  cases c.node with
  | none => simp
  | some n => cases found : n.body.findReply? id <;> simp [found]

end Conversation

namespace Talking

variable {α : Type} {c : Conversation} {store : LiveStore} {time : Option Instant}

/-- A conversation that has shown a node. -/
def shown (c : Conversation) (n : Node) (random : RandomSource) : Conversation :=
  { c with random, node := some n, status := .active }

/-- A conversation that has come to its end. -/
def finished (c : Conversation) : Conversation := { c with node := none, status := .ended }

@[simp] theorem ofExcept_apply (x : Except TalkError α) (talk : Talk) :
    ofExcept x talk = (x, talk) := by
  cases x <;> rfl

@[simp] theorem ofResult_apply (x : Except Failure α) (talk : Talk) :
    ofResult x talk = (x.mapError .failure, talk) := ofExcept_apply _ talk

@[simp] theorem conversation_apply (talk : Talk) :
    conversation talk = (.ok talk.conversation, talk) :=
  rfl

theorem onStore_apply (action : Run LiveStore α) :
    onStore action ⟨c, store⟩ =
      (((action store).1.mapError .failure), ⟨c, (action store).2⟩) := by
  have step : onStore action ⟨c, store⟩ =
      ofResult (action store).1 ⟨c, (action store).2⟩ := rfl
  rw [step, ofResult_apply]

/-- A node runs on the live variables and on the random numbers of the conversation. -/
theorem execute_apply (n : Node) :
    execute n time ⟨c, store⟩ =
      match n.run (c.liveScope time) store c.random with
      | (result, store', random) =>
          (result.mapError .failure, ⟨{ c with random }, store'⟩) :=
  ofResult_apply (n.run (c.liveScope time) store c.random).1
    ⟨{ c with random := (n.run (c.liveScope time) store c.random).2.2 },
      (n.run (c.liveScope time) store c.random).2.1⟩

/-- A node that is presented takes the place of the one before it if its run succeeds; if not, all
that is kept of the run is what it did to variables and random numbers. -/
theorem present_apply (n : Node) :
    present n time ⟨c, store⟩ =
      match n.run (c.liveScope time) store c.random with
      | (.ok node, store', random) => (.ok node, ⟨shown c node random, store'⟩)
      | (.error e, store', random) => (.error (.failure e), ⟨{ c with random }, store'⟩) := by
  rw [present, Run.bind_apply, execute_apply]
  obtain ⟨result, store', random⟩ := n.run (c.liveScope time) store c.random
  cases result <;> rfl

theorem start_apply (node : Option String) :
    start node time ⟨c, store⟩ =
      match c.findNode (node.getD "start") with
      | .ok n => present n time ⟨c, store⟩
      | .error e => (.error e, ⟨c, store⟩) := by
  rw [start, Run.bind_apply, conversation_apply, Run.andThen_ok, Run.bind_apply, ofExcept_apply]
  cases c.findNode (node.getD "start") <;> rfl

theorem resolveReply_apply (id : Int) :
    resolveReply id time ⟨c, store⟩ =
      match c.findReply id with
      | .ok r =>
          let (result, store') := runReplyCommands (c.liveScope time) r.commands store
          ((result.mapError .failure).map fun _ => r.pointer, ⟨c, store'⟩)
      | .error e => (.error e, ⟨c, store⟩) := by
  rw [resolveReply, Run.bind_apply, conversation_apply, Run.andThen_ok, Run.bind_apply,
    ofExcept_apply]
  cases c.findReply id with
  | error e => rfl
  | ok r =>
    rw [Run.andThen_ok, Run.bind_apply, onStore_apply]
    dsimp only
    obtain ⟨result, store'⟩ := runReplyCommands (c.liveScope time) r.commands store
    cases result <;> rfl

/-- Advancing ends the conversation at the end and where no node has the name of the pointer, and
presents the node that has it. -/
theorem advance_internal_apply (id : String) :
    advance (.internal id) time ⟨c, store⟩ =
      match if (Pointer.internal id).isEnd then none else c.dialogue.node? id with
      | none => (.ok none, ⟨finished c, store⟩)
      | some n =>
          match present n time ⟨c, store⟩ with
          | (.ok node, talk) => (.ok (some node), talk)
          | (.error e, talk) => (.error e, talk) := by
  have step : advance (.internal id) time ⟨c, store⟩ =
      (match if (Pointer.internal id).isEnd then none else c.dialogue.node? id with
      | none => (do finish; return none : Talking (Option Node))
      | some n => do
          let node ← present n time
          return some node) ⟨c, store⟩ := rfl
  rw [step]
  cases (if (Pointer.internal id).isEnd then none else c.dialogue.node? id) with
  | none => rfl
  | some n =>
    dsimp only
    rw [Run.bind_apply]
    obtain ⟨result, talk⟩ := present n time ⟨c, store⟩
    cases result <;> rfl

end Talking
end Parley
