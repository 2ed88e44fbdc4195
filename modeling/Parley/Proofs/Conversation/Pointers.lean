import Parley.Proofs.Body.Running
import Parley.Proofs.Conversation.Turn
import Parley.Proofs.Dialogue.Targets

/-!
A dialogue that could be read never leads its user astray: whatever turns a conversation takes, each
reply that it shows leads to a node, to the end or to a dialogue that is known to be referred to.
-/
namespace Parley

namespace Stage

variable {σ : Type}

/-- The replies that have been put out lead where something is asked of. -/
def Leading (good : Pointer → Prop) (stage : Stage σ) : Prop :=
  stage.output.Meets { reply := fun r => good r.pointer }

variable {scope : Scope σ} {good : Pointer → Prop}

theorem keeps_leading_onVars {α : Type} (run : Run σ α) :
    Run.Keeps (Leading good) (onVars run) := fun _ leading => leading

theorem keeps_leading_add {α : Type} {f : (String → Option Value) → Except Failure α}
    {g : α → Body → Body}
    (keeps : ∀ lookup a b, f lookup = .ok a → b.Meets { reply := fun r => good r.pointer } →
      (g a b).Meets { reply := fun r => good r.pointer }) :
    Run.Keeps (Leading good) (do
      let settled ← settle scope f
      onOutput (g settled) : Run (Stage σ) Unit) := by
  intro stage leading
  have settled : settle scope f stage = (f fun name => scope.read name stage.vars, stage) :=
    Run.ofExcept_apply (f fun name => scope.read name stage.vars) stage
  rw [Run.bind_apply, settled]
  cases outcome : f fun name => scope.read name stage.vars with
  | error e => exact leading
  | ok a => exact keeps _ a stage.output outcome leading

/-- Text and commands that are put out show no replies. -/
theorem meets_addText {b : Body} (t : Template)
    (meets : b.Meets { reply := fun r => good r.pointer }) :
    (b.addSegment (.text t)).Meets { reply := fun r => good r.pointer } := by
  obtain ⟨segments, replies⟩ := b
  exact ⟨trivial, segmentsMeet_push_text (fun _ _ _ _ => trivial) meets.2.1 trivial, meets.2.2⟩

theorem meets_addCommand {b : Body} {c : Command}
    (command : c.Meets { reply := fun r => good r.pointer })
    (meets : b.Meets { reply := fun r => good r.pointer }) :
    (b.addCommand c).Meets { reply := fun r => good r.pointer } := by
  obtain ⟨segments, replies⟩ := b
  exact ⟨trivial, segmentsMeet_push_command meets.2.1 command, meets.2.2⟩

theorem meets_addReply {b : Body} {r : Reply} (leads : good r.pointer)
    (meets : b.Meets { reply := fun r => good r.pointer }) :
    (b.addReply r).Meets { reply := fun r => good r.pointer } := by
  obtain ⟨segments, replies⟩ := b
  refine ⟨trivial, meets.2.1, fun other member => ?_⟩
  rcases List.mem_append.mp member with earlier | last
  · exact meets.2.2 other earlier
  · rw [List.mem_singleton.mp last]
    exact leads

theorem leading_passes (scope : Scope σ) (good : Pointer → Prop) :
    Body.Law.Passes { reply := fun r => good r.pointer } scope
      fun _ m => Run.Keeps (Leading good) m where
  pure _ a := Run.keeps_pure a
  bind _ _ _ _ := Run.keeps_bind
  text t _ := keeps_leading_add fun _ resolved _ _ => meets_addText resolved
  action a _ := keeps_leading_add fun _ resolved _ _ => meets_addCommand trivial
  input i _ := keeps_leading_add fun _ resolved _ _ => meets_addCommand trivial
  reply r leads := keeps_leading_add fun _ resolved _ settled meets =>
    meets_addReply (by rw [(Reply.resolve_eq_ok settled).2.1]; exact leads) meets
  set s _ := keeps_leading_onVars _
  condition e _ := keeps_leading_onVars _
  number x := Run.keeps_ofExcept x
  draw := fun _ leading => leading

end Stage

theorem Body.meets_trim {good : Pointer → Prop} {b : Body}
    (meets : b.Meets { reply := fun r => good r.pointer }) :
    b.trim.Meets { reply := fun r => good r.pointer } := by
  obtain ⟨segments, replies⟩ := b
  exact ⟨trivial, segmentsMeet_trim (fun _ _ => trivial) (fun _ _ => trivial) meets.2.1, meets.2.2⟩

/-- The replies that a node shows when it has run lead where those of the node in the script do. -/
theorem Node.leading_of_run {σ : Type} {good : Pointer → Prop} {n shown : Node} {scope : Scope σ}
    {vars vars' : σ} {random random' : RandomSource}
    (leads : n.body.Meets { reply := fun r => good r.pointer })
    (ran : n.run scope vars random = (.ok shown, vars', random')) :
    shown.body.Meets { reply := fun r => good r.pointer } := by
  have kept := n.body.run_passed (Stage.leading_passes scope good) leads ⟨vars, random, .empty⟩
    ⟨trivial, trivial, by simp⟩
  unfold Node.run Body.runFresh at ran
  cases outcome : n.body.run scope ⟨vars, random, .empty⟩ with
  | mk result stage =>
    rw [outcome] at ran kept
    cases result with
    | error e => cases ran
    | ok u =>
      cases ran
      exact Body.meets_trim kept

namespace Talking

/-- How a conversation on a dialogue can go: what it and its user's variables can become, and the
pointers that it has given out. Others may change the variables at any time; a turn counts also if
it fails. -/
inductive Reached (d : Dialogue) : Talk → List Pointer → Prop
  | begun (random : RandomSource) (notify : Bool) (store : LiveStore) :
      Reached d ⟨.ofDialogue d random notify, store⟩ []
  | changed {c : Conversation} {store : LiveStore} {given : List Pointer} (store' : LiveStore) :
      Reached d ⟨c, store⟩ given → Reached d ⟨c, store'⟩ given
  | started {talk : Talk} {given : List Pointer} (node : Option String) (time : Option Instant) :
      Reached d talk given → Reached d (start node time talk).2 given
  | resolved {talk : Talk} {given : List Pointer} (id : Int) (time : Option Instant) :
      Reached d talk given →
        Reached d (resolveReply id time talk).2
          (given ++ (resolveReply id time talk).1.toOption.toList)
  | advanced {talk : Talk} {given : List Pointer} {pointer : Pointer} (time : Option Instant) :
      Reached d talk given → pointer ∈ given → Reached d (advance pointer time talk).2 given

/-- What is true of a conversation on a sound dialogue at all times. -/
structure OnTrack (d : Dialogue) (talk : Talk) (given : List Pointer) : Prop where
  dialogue : talk.conversation.dialogue = d
  active : talk.conversation.status = .active ↔ talk.conversation.node.isSome
  shown : ∀ n, talk.conversation.node = some n →
    n.body.Meets { reply := fun r => d.Leads r.pointer }
  given : ∀ pointer ∈ given, d.Leads pointer

variable {d : Dialogue} {given : List Pointer} {c : Conversation} {store : LiveStore}

/-- Presenting a node of a sound dialogue leaves a conversation on track, whether the node is shown
or its run fails. -/
theorem OnTrack.present
    (sound : ∀ n ∈ d.nodes, n.body.Meets { reply := fun r => d.Leads r.pointer })
    (track : OnTrack d ⟨c, store⟩ given) {n : Node} (member : n ∈ d.nodes)
    (time : Option Instant) : OnTrack d (present n time ⟨c, store⟩).2 given := by
  rw [present_apply]
  split
  · rename_i node store' random ran
    refine ⟨track.dialogue, by simp [Talking.shown], ?_, track.given⟩
    intro m here
    cases here
    exact Node.leading_of_run (sound n member) ran
  · exact ⟨track.dialogue, track.active, track.shown, track.given⟩

theorem OnTrack.finished (track : OnTrack d ⟨c, store⟩ given) :
    OnTrack d ⟨finished c, store⟩ given :=
  ⟨track.dialogue, by simp [Talking.finished], by simp [Talking.finished], track.given⟩

theorem onTrack_of_reached
    (sound : ∀ n ∈ d.nodes, n.body.Meets { reply := fun r => d.Leads r.pointer }) {talk : Talk}
    (reached : Reached d talk given) : OnTrack d talk given := by
  induction reached with
  | begun random notify store =>
    exact ⟨rfl, by simp [Conversation.ofDialogue], by simp [Conversation.ofDialogue], by simp⟩
  | changed store' _ track => exact ⟨track.dialogue, track.active, track.shown, track.given⟩
  | @started talk given node time _ track =>
    obtain ⟨c, store⟩ := talk
    rw [start_apply]
    split
    · rename_i n found
      have there := Conversation.findNode_eq_ok_iff.mp found
      rw [track.dialogue] at there
      exact track.present sound (List.mem_of_find?_eq_some there) time
    · exact track
  | @resolved talk given id time _ track =>
    obtain ⟨c, store⟩ := talk
    rw [resolveReply_apply]
    split
    · rename_i r found
      obtain ⟨n, here, offered⟩ := Conversation.findReply_eq_ok_iff.mp found
      have leads : d.Leads r.pointer :=
        Body.replies_of_meets (track.shown n here) r (List.mem_of_find?_eq_some offered)
      refine ⟨track.dialogue, track.active, track.shown, fun pointer member => ?_⟩
      rcases List.mem_append.mp member with earlier | last
      · exact track.given pointer earlier
      · cases outcome : runReplyCommands (c.liveScope time) r.commands store with
        | mk result store' =>
          rw [outcome] at last
          cases result with
          | error e => cases last
          | ok _ =>
            cases List.mem_singleton.mp last
            exact leads
    · simpa [Except.toOption] using track
  | @advanced talk given pointer time _ member track =>
    obtain ⟨c, store⟩ := talk
    cases pointer with
    | external reference id dialogue => exact track
    | internal id =>
      rw [advance_internal_apply]
      split
      · exact track.finished
      · rename_i n found
        have there : c.dialogue.node? id = some n := by
          split at found
          · cases found
          · exact found
        rw [track.dialogue] at there
        have next := track.present sound (List.mem_of_find?_eq_some there) time
        split <;> simp_all

/-- A conversation on a dialogue that could be read never runs into a pointer to nothing, however it
has gone so far. It is active exactly when it shows a node; every reply of that node leads to a node
of the dialogue, to the end, or to a dialogue that is listed among the references; and to follow a
pointer that it has given out within the dialogue ends the conversation if the pointer is the end,
and otherwise runs a node that is there. -/
theorem never_led_astray {name : String} {lines : List (List Char)} {d : Dialogue}
    (read : Dialogue.ofLines name lines = .ok d) {talk : Talk} {given : List Pointer}
    (reached : Reached d talk given) :
    (talk.conversation.status = .active ↔ talk.conversation.node.isSome) ∧
    (∀ n, talk.conversation.node = some n → ∀ r ∈ n.body.nested, d.Leads r.pointer) ∧
    ∀ id time, Pointer.internal id ∈ given →
      let c := talk.conversation
      let outcome := advance (.internal id) time talk
      (outcome.1 = .ok none ∧ outcome.2.conversation.status = .ended ↔ Pointer.isEndId id) ∧
      (Pointer.isEndId id → outcome.2 = ⟨finished c, talk.store⟩) ∧
      (¬ Pointer.isEndId id → ∃ n, d.node? id = some n ∧
        match n.run (c.liveScope time) talk.store c.random with
        | (.ok node, store, random) => outcome = (.ok (some node), ⟨shown c node random, store⟩)
        | (.error e, store, random) =>
            outcome = (.error (.failure e), ⟨{ c with random }, store⟩)) := by
  have track := onTrack_of_reached (fun n => Dialogue.leads_of_ofLines read) reached
  refine ⟨track.active, fun n here => Body.replies_of_meets (track.shown n here), ?_⟩
  intro id time member
  obtain ⟨c, store⟩ := talk
  have leads : Pointer.isEndId id ∨ d.hasNode id := track.given _ member
  have same : c.dialogue = d := track.dialogue
  dsimp only
  rw [advance_internal_apply]
  cases isEnd : Pointer.isEndId id with
  | true => simp [Pointer.isEnd, isEnd, finished]
  | false =>
    have there : d.hasNode id := by simpa [isEnd] using leads
    obtain ⟨n, found⟩ := Option.isSome_iff_exists.mp there
    have here : c.dialogue.node? id = some n := by rw [same]; exact found
    rw [here]
    simp only [Pointer.isEnd, isEnd, Bool.false_eq_true, ↓reduceIte, present_apply]
    cases ran : n.run (c.liveScope time) store c.random with
    | mk result rest =>
      obtain ⟨store', random⟩ := rest
      cases result with
      | ok node => simp [found, ran]
      | error e => simp [found, ran]

/-- Of two nodes the first leads to the second and the second to the end. From the first the
conversation does not end. -/
theorem first_of_two_nodes_leads_on :
    ∃ d pointer talk, Dialogue.ofText "d"
      ("title: Start\nspeaker: Ann\n---\nHi\n[[Go on|second]]\n===\n" ++
        "title: Second\nspeaker: Ann\n---\nBye\n[[End]]\n===\n") = .ok d ∧
      resolveReply 1 none (start none none ⟨.ofDialogue d (.ofDraws []) false,
        .ofStore (.ofVariables ⟨"Ann", "UTC"⟩ []) 0 []⟩).2 = (.ok pointer, talk) ∧
      pointer = .internal "second" ∧ talk.conversation.status = .active ∧
      ¬ ((advance pointer none talk).1 = .ok none ∧
        (advance pointer none talk).2.conversation.status = .ended) := by
  have summary : (do
      let d ← (Dialogue.ofText "d"
        ("title: Start\nspeaker: Ann\n---\nHi\n[[Go on|second]]\n===\n" ++
        "title: Second\nspeaker: Ann\n---\nBye\n[[End]]\n===\n")).toOption
      let turn := resolveReply 1 none (start none none ⟨.ofDialogue d (.ofDraws []) false,
        .ofStore (.ofVariables ⟨"Ann", "UTC"⟩ []) 0 []⟩).2
      let pointer ← turn.1.toOption
      return (pointer, turn.2.conversation.node.isSome)) = some (.internal "second", true) := by
    decide +kernel
  simp only [bind, pure, Option.bind_eq_some_iff, toOption_eq_some_iff, Option.some.injEq,
    Prod.mk.injEq] at summary
  obtain ⟨d, read, pointer, given, rfl, shown⟩ := summary
  have reached := Reached.resolved 1 none (.started none none (.begun (.ofDraws []) false
      (.ofStore (.ofVariables ⟨"Ann", "UTC"⟩ []) 0 []) : Reached d _ []))
  rw [given] at reached
  obtain ⟨active, _, onward⟩ := never_led_astray read reached
  obtain ⟨ends, _, _⟩ := onward "second" none (by simp [Except.toOption])
  refine ⟨d, _, _, read, Prod.ext given rfl, rfl, active.mpr shown, fun ending => ?_⟩
  have isEnd : Pointer.isEndId "second" := ends.mp ending
  exact absurd isEnd (by decide)

end Talking

end Parley
