import Parley.Event.Basic
import Parley.Proofs.Conversation.Assignments

/-!
What a host tells of its conversations. Whatever is asked of the host, in whatever order and on
whatever variables, the events of a conversation keep to one protocol: the conversation is started
and enters a node, enters no further node and comes to no end but by a reply, and is over when it
has ended.
-/
namespace Parley

def Happening.topic : Happening → Topic
  | .started => .dialogueStarted
  | .entered _ => .nodeEntered
  | .replied .. => .replySelected
  | .inputStored _ => .replyInputStored
  | .ended => .dialogueEnded

/-- The topics of those events that are about the conversation of a number. -/
def TalkEvent.topics (events : List TalkEvent) (number : Nat) : List Topic :=
  (events.filter (·.conversation == number)).map (·.happening.topic)

/-! The protocol -/

/-- What can have been told of a conversation that is under way. -/
inductive Ongoing : List Topic → Prop
  | begun : Ongoing [.dialogueStarted, .nodeEntered]
  | stored {told : List Topic} : Ongoing told → Ongoing (told ++ [.replyInputStored])
  | stuck {told : List Topic} : Ongoing told → Ongoing (told ++ [.replySelected])
  | entered {told : List Topic} : Ongoing told → Ongoing (told ++ [.replySelected, .nodeEntered])

/-- What can have been told of a conversation that has ended. -/
inductive Over : List Topic → Prop
  | ended {told : List Topic} : Ongoing told → Over (told ++ [.replySelected, .dialogueEnded])
  | stored {told : List Topic} : Over told → Over (told ++ [.replyInputStored])

/-- Whether every node that is entered, and the end, comes behind a reply, with no other node
entered in between. -/
def Answered (told : List Topic) : Prop :=
  ∀ before x after, told = before ++ x :: after → x = .nodeEntered ∨ x = .dialogueEnded →
    ∃ earlier later, before = earlier ++ .replySelected :: later ∧ .nodeEntered ∉ later

theorem Answered.concat {told : List Topic} {x : Topic} (answered : Answered told)
    (due : x = .nodeEntered ∨ x = .dialogueEnded →
      ∃ earlier later, told = earlier ++ .replySelected :: later ∧ .nodeEntered ∉ later) :
    Answered (told ++ [x]) := by
  intro before y after same
  rcases List.eq_nil_or_concat after with rfl | ⟨more, z, rfl⟩
  · obtain ⟨rfl, last⟩ := List.append_inj' same rfl
    cases last
    exact due
  · rw [List.concat_eq_append, ← List.cons_append, ← List.append_assoc] at same
    exact answered before y more (List.append_inj' same rfl).1

/-- A conversation under way has started and entered a node, and what came then was answered. -/
theorem Ongoing.shape {told : List Topic} (ongoing : Ongoing told) :
    ∃ rest, told = .dialogueStarted :: .nodeEntered :: rest ∧ .dialogueStarted ∉ rest ∧
      .dialogueEnded ∉ rest ∧ Answered rest := by
  induction ongoing with
  | begun => exact ⟨[], rfl, by simp, by simp, fun before x after same => by simp at same⟩
  | stored _ ih =>
    obtain ⟨rest, rfl, once, going, answered⟩ := ih
    exact ⟨rest ++ [.replyInputStored], rfl, by simp [once], by simp [going],
      answered.concat (by simp)⟩
  | stuck _ ih =>
    obtain ⟨rest, rfl, once, going, answered⟩ := ih
    exact ⟨rest ++ [.replySelected], rfl, by simp [once], by simp [going],
      answered.concat (by simp)⟩
  | entered _ ih =>
    obtain ⟨rest, rfl, once, going, answered⟩ := ih
    refine ⟨rest ++ [.replySelected] ++ [.nodeEntered], by simp, by simp [once], by simp [going],
      ?_⟩
    exact (answered.concat (by simp)).concat fun _ => ⟨rest, [], rfl, by simp⟩

/-- A conversation that has ended was under way up to a reply, and behind its end only input was
stored. -/
theorem Over.shape {told : List Topic} (past : Over told) :
    ∃ rest inputs, told = .dialogueStarted :: .nodeEntered :: (rest ++ .dialogueEnded :: inputs) ∧
      .dialogueStarted ∉ rest ∧ .dialogueEnded ∉ rest ∧
        Answered (rest ++ .dialogueEnded :: inputs) ∧ ∀ x ∈ inputs, x = .replyInputStored := by
  induction past with
  | ended ongoing =>
    obtain ⟨rest, rfl, once, going, answered⟩ := ongoing.shape
    refine ⟨rest ++ [.replySelected], [], by simp, by simp [once], by simp [going], ?_, by simp⟩
    exact (answered.concat (by simp)).concat fun _ => ⟨rest, [], rfl, by simp⟩
  | stored _ ih =>
    obtain ⟨rest, inputs, rfl, once, going, answered, only⟩ := ih
    refine ⟨rest, inputs ++ [.replyInputStored], by simp, once, going, ?_, fun x member => ?_⟩
    · simpa using answered.concat (x := .replyInputStored) (by simp)
    · rcases List.mem_append.mp member with before | last
      · exact only x before
      · exact List.mem_singleton.mp last

/-! What the host does -/

namespace Conversation

/-- Whether a conversation is at a node. -/
def AtNode (c : Conversation) : Prop := c.status = .active ∧ c.node.isSome

/-- Whether a conversation is behind its end. -/
def Left (c : Conversation) : Prop := c.status = .ended ∧ c.node = none

end Conversation

namespace Talking

theorem atNode_of_start {c : Conversation} {store : LiveStore} {node : Option String}
    {time : Option Instant} {n : Node} {talk : Talk}
    (started : start node time ⟨c, store⟩ = (.ok n, talk)) : talk.conversation.AtNode := by
  rw [start_apply] at started
  split at started
  · rw [present_apply] at started
    split at started
    · cases started
      exact ⟨rfl, rfl⟩
    · cases started
  · cases started

theorem storeInput_apply {c : Conversation} {store : LiveStore} (values : Bindings)
    (time : Option Instant) :
    storeInput values time ⟨c, store⟩ =
      let (result, store') := LiveStore.addAll values ⟨c.notify, time, .inputReply⟩ store
      ((result.mapError .failure).map fun _ => (), ⟨c, store'⟩) := by
  rw [storeInput, Run.bind_apply, conversation_apply, Run.andThen_ok, Run.bind_apply,
    onStore_apply]
  dsimp only
  cases LiveStore.addAll values ⟨c.notify, time, .inputReply⟩ store with
  | mk result store' => cases result <;> rfl

end Talking

namespace Hosting

variable {α : Type} {h : Host} {store : LiveStore} {number : Nat} {c : Conversation}

theorem set_same (there : h.conversations[number]? = some c) :
    h.conversations.set number c = h.conversations := by
  obtain ⟨inside, rfl⟩ := List.getElem?_eq_some_iff.mp there
  exact List.set_getElem_self inside

theorem conversation_apply (there : h.conversations[number]? = some c) :
    conversation number ⟨h, store⟩ = (.ok c, ⟨h, store⟩) := by
  rw [conversation, within_apply there, Talking.conversation_apply, set_same there]

theorem publish_apply (there : h.conversations[number]? = some c) (happening : Happening) :
    publish number happening ⟨h, store⟩ =
      (.ok (), ⟨{ h with events := h.events ++ [⟨number, c.dialogue.name, happening⟩] },
        store⟩) := by
  rw [publish, Run.bind_apply, conversation_apply there]
  rfl

/-- What is told when a conversation has been added. -/
def greeting (number : Nat) (c : Conversation) : List TalkEvent :=
  [⟨number, c.dialogue.name, .started⟩,
    ⟨number, c.dialogue.name, .entered ((c.node.map Node.title).getD "")⟩]

theorem welcome_apply (c : Conversation) :
    welcome c ⟨h, store⟩ = (.ok h.conversations.length, ⟨{ h with
      conversations := h.conversations ++ [c]
      events := h.events ++ greeting h.conversations.length c }, store⟩) := by
  have there : (h.conversations ++ [c])[h.conversations.length]? = some c := by simp
  have added : append c ⟨h, store⟩ = (.ok h.conversations.length,
      ⟨{ h with conversations := h.conversations ++ [c] }, store⟩) := rfl
  rw [welcome, Run.bind_apply, added, Run.andThen_ok, Run.bind_apply, publish_apply there,
    Run.andThen_ok, Run.bind_apply, publish_apply there, Run.andThen_ok]
  simp [greeting]

theorem find?_keeps (h : Host) (name : String) :
    (h.find? name).2.conversations = h.conversations ∧ (h.find? name).2.events = h.events := by
  unfold Host.find?
  split
  · exact ⟨rfl, rfl⟩
  · split <;> exact ⟨rfl, rfl⟩

/-- To launch a conversation leaves those of the host and its events alone, and gives one that is at
its first node. -/
theorem keeps_launch (h : Host) (store : LiveStore) (name : String) (node : Option String)
    (time : Option Instant) :
    ∃ host store', host.conversations = h.conversations ∧ host.events = h.events ∧
      ((∃ e, launch name node time ⟨h, store⟩ = (.error e, ⟨host, store'⟩)) ∨
        ∃ c, launch name node time ⟨h, store⟩ = (.ok c, ⟨host, store'⟩) ∧ c.AtNode) := by
  obtain ⟨conversations, events⟩ := find?_keeps h name
  rw [launch_apply]
  cases (h.find? name).1 with
  | none => exact ⟨_, _, conversations, events, .inl ⟨_, rfl⟩⟩
  | some d =>
    dsimp only
    cases outcome : Talking.start node time ⟨.ofDialogue d h.random h.notify, store⟩ with
    | mk result talk =>
      cases result with
      | error e => exact ⟨_, _, conversations, events, .inl ⟨_, rfl⟩⟩
      | ok n => exact ⟨_, _, conversations, events, .inr ⟨_, rfl, Talking.atNode_of_start outcome⟩⟩

/-- That a reply has been chosen. -/
def answer (number : Nat) (c : Conversation) (reply : Int) (statement : String) (r : Reply) :
    TalkEvent :=
  ⟨number, c.dialogue.name, .replied reply statement r.pointer⟩

/-- What comes of choosing a reply: how the call ends, and the conversations and events behind it.
The call can fail before the reply is told of, or between that and the next step. -/
inductive Selected (h : Host) (number : Nat) (reply : Int) :
    Except TalkError Nat → List Conversation → List TalkEvent → Prop
  | refused (e : TalkError) : Selected h number reply (.error e) h.conversations h.events
  | stuck {c : Conversation} {r : Reply} (e : TalkError) (random : RandomSource)
      (statement : String) (there : h.conversations[number]? = some c)
      (offered : c.findReply reply = .ok r) :
      Selected h number reply (.error e) (h.conversations.set number { c with random })
        (h.events ++ [answer number c reply statement r])
  | entered {c : Conversation} {r : Reply} {id : String} (node : Node) (random : RandomSource)
      (statement : String) (there : h.conversations[number]? = some c)
      (offered : c.findReply reply = .ok r) (inside : r.pointer = .internal id) :
      Selected h number reply (.ok number)
        (h.conversations.set number (Talking.shown c node random))
        (h.events ++ [answer number c reply statement r,
          ⟨number, c.dialogue.name, .entered node.title⟩])
  | ended {c : Conversation} {r : Reply} {id : String} (statement : String)
      (there : h.conversations[number]? = some c) (offered : c.findReply reply = .ok r)
      (inside : r.pointer = .internal id) :
      Selected h number reply (.ok number) (h.conversations.set number (Talking.finished c))
        (h.events ++ [answer number c reply statement r, ⟨number, c.dialogue.name, .ended⟩])
  | followed {c following : Conversation} {r : Reply} (statement : String)
      (there : h.conversations[number]? = some c) (offered : c.findReply reply = .ok r)
      (opened : following.AtNode) :
      Selected h number reply (.ok h.conversations.length)
        (h.conversations.set number (Talking.finished c) ++ [following])
        (h.events ++ (answer number c reply statement r :: ⟨number, c.dialogue.name, .ended⟩ ::
          greeting h.conversations.length following))

theorem selected_of_follow {r : Reply} {reply : Int} (there : h.conversations[number]? = some c)
    (offered : c.findReply reply = .ok r) (statement : String) (time : Option Instant) :
    let after := follow number reply statement time r.pointer ⟨h, store⟩
    Selected h number reply after.1 after.2.host.conversations after.2.host.events := by
  have inside : number < h.conversations.length := (List.getElem?_eq_some_iff.mp there).1
  obtain ⟨told, conversations, events, publishes⟩ : ∃ told : Host,
      told.conversations = h.conversations ∧
        told.events = h.events ++ [answer number c reply statement r] ∧
          publish number (.replied reply statement r.pointer) ⟨h, store⟩ =
            (.ok (), ⟨told, store⟩) :=
    ⟨{ h with events := h.events ++ [answer number c reply statement r] }, rfl, rfl,
      publish_apply there _⟩
  have still : told.conversations[number]? = some c := conversations ▸ there
  have left (host : Host) (same : host.conversations = h.conversations) :
      (host.conversations.set number (Talking.finished c))[number]? = some (Talking.finished c) :=
    List.getElem?_set_self (same ▸ inside)
  dsimp only
  unfold follow
  rw [Run.bind_apply, publishes, Run.andThen_ok]
  cases pointer : r.pointer with
  | external reference node dialogue =>
    dsimp only
    rw [Run.bind_apply]
    obtain ⟨host, store', kept, before, outcome⟩ :=
      keeps_launch told store dialogue (some node) time
    rw [conversations] at kept
    rw [events] at before
    rcases outcome with ⟨e, failed⟩ | ⟨following, launched, opened⟩
    · rw [failed, Run.andThen_error, kept, before, ← set_same there]
      exact .stuck e c.random statement there offered
    · have finish : within number Talking.finish ⟨host, store'⟩ = (.ok (), ⟨{ host with
          conversations := host.conversations.set number (Talking.finished c) }, store'⟩) :=
        within_apply (kept ▸ there) Talking.finish
      rw [launched, Run.andThen_ok, Run.bind_apply, finish, Run.andThen_ok, Run.bind_apply,
        publish_apply (left host kept), Run.andThen_ok, welcome_apply]
      have followed := Selected.followed (h := h) statement there offered opened
      simpa [kept, before, Talking.finished] using followed
  | internal id =>
    dsimp only
    rw [Run.bind_apply, within_apply still, Talking.advance_internal_apply]
    -- the end, a node that can be shown, or one that fails
    cases (if (Pointer.internal id).isEnd then none else c.dialogue.node? id) with
    | none =>
      dsimp only
      rw [Run.andThen_ok]
      dsimp only
      rw [Run.bind_apply, publish_apply (left told conversations), Run.andThen_ok]
      have ended := Selected.ended (h := h) statement there offered pointer
      simpa [conversations, events, Talking.finished] using ended
    | some n =>
      dsimp only
      rw [Talking.present_apply]
      cases n.run (c.liveScope time) store c.random with
      | mk result rest =>
        obtain ⟨store', random⟩ := rest
        cases result with
        | error e =>
          have stuck := Selected.stuck (h := h) (.failure e) random statement there offered
          simpa [conversations, events] using stuck
        | ok node =>
          have there' : (told.conversations.set number (Talking.shown c node random))[number]? =
              some (Talking.shown c node random) :=
            List.getElem?_set_self (conversations ▸ inside)
          dsimp only
          rw [Run.andThen_ok]
          dsimp only
          rw [Run.bind_apply, publish_apply there', Run.andThen_ok]
          have entered := Selected.entered (h := h) node random statement there offered pointer
          simpa [conversations, events, Talking.shown] using entered

theorem selected_of_select (h : Host) (store : LiveStore) (number : Nat) (reply : Int)
    (time : Option Instant) :
    let after := select number reply time ⟨h, store⟩
    Selected h number reply after.1 after.2.host.conversations after.2.host.events := by
  dsimp only
  rw [select_eq, Run.bind_apply]
  cases there : h.conversations[number]? with
  | none =>
    rw [conversation, within_of_unknown there]
    exact .refused _
  | some c =>
    have same := set_same there
    rw [conversation_apply there, Run.andThen_ok, Run.bind_apply, Run.get_apply, Run.andThen_ok,
      Run.bind_apply, within_apply there, Talking.ofExcept_apply, same]
    dsimp only
    cases c.statement store.store reply with
    | error e => exact .refused e
    | ok statement =>
      rw [Run.andThen_ok, Run.bind_apply, within_apply there, Talking.resolveReply_apply]
      cases offered : c.findReply reply with
      | error e =>
        dsimp only
        rw [same]
        exact .refused e
      | ok r =>
        dsimp only
        cases Talking.runReplyCommands (c.liveScope time) r.commands store with
        | mk result store' =>
          dsimp only
          rw [same]
          cases result with
          | error e => exact .refused (.failure e)
          | ok u => exact selected_of_follow there offered statement time

theorem started_of_start (h : Host) (store : LiveStore) (name : String) (node : Option String)
    (time : Option Instant) :
    let after := (start name node time ⟨h, store⟩).2.host
    (after.conversations = h.conversations ∧ after.events = h.events) ∨
      ∃ c : Conversation, c.AtNode ∧ after.conversations = h.conversations ++ [c] ∧
        after.events = h.events ++ greeting h.conversations.length c := by
  obtain ⟨host, store', conversations, events, outcome⟩ :=
    keeps_launch h store name node time
  dsimp only
  rw [start, Run.bind_apply]
  rcases outcome with ⟨e, failed⟩ | ⟨c, launched, opened⟩
  · rw [failed]
    exact .inl ⟨conversations, events⟩
  · rw [launched, Run.andThen_ok, welcome_apply, conversations, events]
    exact .inr ⟨c, opened, rfl, rfl⟩

theorem stored_of_storeInput (h : Host) (store : LiveStore) (number : Nat) (values : Bindings)
    (time : Option Instant) :
    let after := (storeInput number values time ⟨h, store⟩).2.host
    after.conversations = h.conversations ∧ (after.events = h.events ∨
      ∃ c, h.conversations[number]? = some c ∧
        after.events = h.events ++ [⟨number, c.dialogue.name, .inputStored values⟩]) := by
  dsimp only
  rw [storeInput, Run.bind_apply]
  cases there : h.conversations[number]? with
  | none =>
    rw [within_of_unknown there]
    exact ⟨rfl, .inl rfl⟩
  | some c =>
    rw [within_apply there, Talking.storeInput_apply]
    cases LiveStore.addAll values ⟨c.notify, time, .inputReply⟩ store with
    | mk result store' =>
      dsimp only
      rw [set_same there]
      cases result with
      | error e => exact ⟨rfl, .inl rfl⟩
      | ok added =>
        have told : Except.map (fun _ => ()) (Except.mapError TalkError.failure (.ok added)) =
            .ok () := rfl
        rw [told, Run.andThen_ok, publish_apply there]
        exact ⟨rfl, .inr ⟨c, rfl, rfl⟩⟩

end Hosting

/-! What is kept -/

section Protocol

variable {conversations : List Conversation} {events : List TalkEvent} {number : Nat}
  {c : Conversation}

namespace TalkEvent

theorem topics_append (earlier later : List TalkEvent) (number : Nat) :
    topics (earlier ++ later) number = topics earlier number ++ topics later number := by
  simp [topics]

theorem topics_of_other {later : List TalkEvent} (own : ∀ e ∈ later, e.conversation = number)
    {other : Nat} (apart : other ≠ number) : topics later other = [] := by
  have none : later.filter (·.conversation == other) = [] := by
    rw [List.filter_eq_nil_iff]
    intro e member
    simp [own e member, Ne.symm apart]
  rw [topics, none, List.map_nil]

theorem topics_of_own {later : List TalkEvent} (own : ∀ e ∈ later, e.conversation = number) :
    topics later number = later.map (·.happening.topic) := by
  have all : later.filter (·.conversation == number) = later := by
    rw [List.filter_eq_self]
    intro e member
    simp [own e member]
  rw [topics, all]

end TalkEvent

/-- Whether what has been told of a conversation fits what has become of it. -/
def Conversation.Fits (c : Conversation) (told : List Topic) : Prop :=
  c.AtNode ∧ Ongoing told ∨ c.Left ∧ Over told

/-- Whether what has been told of every conversation fits what has become of it, and nothing has
been told of others. -/
structure Proper (conversations : List Conversation) (events : List TalkEvent) : Prop where
  known : ∀ e ∈ events, e.conversation < conversations.length
  fits : ∀ (number : Nat) (c : Conversation), conversations[number]? = some c →
    c.Fits (TalkEvent.topics events number)

theorem Proper.tell (proper : Proper conversations events)
    (there : conversations[number]? = some c) {c' : Conversation} {later : List TalkEvent}
    (own : ∀ e ∈ later, e.conversation = number)
    (fits : c'.Fits (TalkEvent.topics events number ++ later.map (·.happening.topic))) :
    Proper (conversations.set number c') (events ++ later) := by
  have inside : number < conversations.length := (List.getElem?_eq_some_iff.mp there).1
  constructor
  · intro e member
    rw [List.length_set]
    rcases List.mem_append.mp member with before | last
    · exact proper.known e before
    · rw [own e last]
      exact inside
  · intro other d found
    rw [TalkEvent.topics_append]
    by_cases same : other = number
    · subst same
      rw [List.getElem?_set_self inside] at found
      cases found
      rw [TalkEvent.topics_of_own own]
      exact fits
    · rw [List.getElem?_set_ne (Ne.symm same)] at found
      rw [TalkEvent.topics_of_other own same, List.append_nil]
      exact proper.fits other d found

theorem Proper.greet (proper : Proper conversations events) (opened : c.AtNode) :
    Proper (conversations ++ [c]) (events ++ Hosting.greeting conversations.length c) := by
  have own : ∀ e ∈ Hosting.greeting conversations.length c,
      e.conversation = conversations.length := by
    simp [Hosting.greeting]
  constructor
  · intro e member
    rw [List.length_append, List.length_singleton]
    rcases List.mem_append.mp member with before | last
    · exact Nat.lt_succ_of_lt (proper.known e before)
    · rw [own e last]
      exact Nat.lt_succ_self _
  · intro other d found
    rw [TalkEvent.topics_append]
    by_cases earlier : other < conversations.length
    · rw [List.getElem?_append_left earlier] at found
      rw [TalkEvent.topics_of_other own (Nat.ne_of_lt earlier), List.append_nil]
      exact proper.fits other d found
    · obtain ⟨bound, last⟩ := List.getElem?_eq_some_iff.mp found
      rw [List.length_append, List.length_singleton] at bound
      obtain rfl : other = conversations.length := by omega
      rw [List.getElem_concat_length rfl] at last
      subst last
      have silent : TalkEvent.topics events conversations.length = [] := by
        rw [TalkEvent.topics, List.map_eq_nil_iff, List.filter_eq_nil_iff]
        intro e member
        simpa using Nat.ne_of_lt (proper.known e member)
      rw [silent, TalkEvent.topics_of_own own]
      exact .inl ⟨opened, .begun⟩

/-- What has been told of a conversation begins with its start and its first node, all else that
counts is answered, and the end is told once, for good, if there is one. -/
theorem Conversation.Fits.protocol {told : List Topic} (fits : c.Fits told) :
    (∃ rest, told = .dialogueStarted :: .nodeEntered :: rest ∧ .dialogueStarted ∉ rest ∧
      Answered rest) ∧
    told.count .dialogueEnded = (if c.status = .ended then 1 else 0) ∧
    ∀ before after, told = before ++ .dialogueEnded :: after →
      ∀ x ∈ after, x = .replyInputStored := by
  rcases fits with ⟨⟨active, _⟩, ongoing⟩ | ⟨⟨ended, _⟩, past⟩
  · obtain ⟨rest, rfl, once, going, answered⟩ := ongoing.shape
    have silent : .dialogueEnded ∉ Topic.dialogueStarted :: .nodeEntered :: rest := by simp [going]
    refine ⟨⟨rest, rfl, once, answered⟩, ?_, fun before after same => ?_⟩
    · rw [List.count_eq_zero_of_not_mem silent, active]
      rfl
    · exact absurd (by simp [same]) silent
  · obtain ⟨rest, inputs, rfl, once, going, answered, only⟩ := past.shape
    have closed : Topic.dialogueEnded ∉ inputs := fun member => nomatch only _ member
    refine ⟨⟨_, rfl, ?_, answered⟩, ?_, fun before after same => ?_⟩
    · have opened : Topic.dialogueStarted ∉ inputs := fun member => nomatch only _ member
      simp [once, opened]
    · rw [if_pos ended]
      simp [List.count_append, List.count_eq_zero_of_not_mem going,
        List.count_eq_zero_of_not_mem closed]
    · have same : (.dialogueStarted :: .nodeEntered :: rest) ++ .dialogueEnded :: inputs =
          before ++ .dialogueEnded :: after := same
      have going : Topic.dialogueEnded ∉ Topic.dialogueStarted :: .nodeEntered :: rest := by
        simp [going]
      obtain ⟨_, _, same⟩ := (List.append_cons_inj_of_notMem going closed).mp same
      exact same ▸ only

/-- A conversation that offers a reply is under way. -/
theorem Conversation.Fits.ongoing {told : List Topic} (fits : c.Fits told) {reply : Int} {r : Reply}
    (offered : c.findReply reply = .ok r) : c.AtNode ∧ Ongoing told := by
  rcases fits with under | ⟨⟨_, nowhere⟩, _⟩
  · exact under
  · obtain ⟨n, here, _⟩ := Conversation.findReply_eq_ok_iff.mp offered
    rw [nowhere] at here
    cases here

theorem Proper.selected {h : Host} {reply : Int} {result : Except TalkError Nat}
    {conversations : List Conversation} {events : List TalkEvent}
    (proper : Proper h.conversations h.events)
    (selected : Hosting.Selected h number reply result conversations events) :
    Proper conversations events := by
  cases selected with
  | refused e => exact proper
  | stuck e random statement there offered =>
    obtain ⟨atNode, ongoing⟩ := (proper.fits _ _ there).ongoing offered
    exact proper.tell there (by simp [Hosting.answer]) (.inl ⟨atNode, ongoing.stuck⟩)
  | entered node random statement there offered inside =>
    obtain ⟨_, ongoing⟩ := (proper.fits _ _ there).ongoing offered
    exact proper.tell there (by simp [Hosting.answer]) (.inl ⟨⟨rfl, rfl⟩, ongoing.entered⟩)
  | ended statement there offered inside =>
    obtain ⟨_, ongoing⟩ := (proper.fits _ _ there).ongoing offered
    exact proper.tell there (by simp [Hosting.answer]) (.inr ⟨⟨rfl, rfl⟩, .ended ongoing⟩)
  | @followed c following r statement there offered opened =>
    obtain ⟨_, ongoing⟩ := (proper.fits _ _ there).ongoing offered
    have left : Proper (h.conversations.set number (Talking.finished c)) (h.events ++
        [Hosting.answer number c reply statement r, ⟨number, c.dialogue.name, .ended⟩]) :=
      proper.tell there (by simp [Hosting.answer]) (.inr ⟨⟨rfl, rfl⟩, .ended ongoing⟩)
    simpa using left.greet opened

end Protocol

namespace Hosting

/-- What a host and the variables at hand can come to. The host is asked for one thing after the
other, whether it succeeds or fails; between two calls all but its conversations and what it has
told can change, and each call can be about the variables of another user. -/
inductive Reached : Scene → Prop
  | opened (dialogues : List (String × Dialogue)) (library : Library) (random : RandomSource)
      (notify : Bool) (store : LiveStore) :
      Reached ⟨⟨dialogues, library, random, notify, [], []⟩, store⟩
  | between {host : Host} {store : LiveStore} (dialogues : List (String × Dialogue))
      (library : Library) (random : RandomSource) (notify : Bool) (store' : LiveStore) :
      Reached ⟨host, store⟩ →
        Reached ⟨⟨dialogues, library, random, notify, host.conversations, host.events⟩, store'⟩
  | started {scene : Scene} (name : String) (node : Option String) (time : Option Instant) :
      Reached scene → Reached (start name node time scene).2
  | selected {scene : Scene} (number : Nat) (reply : Int) (time : Option Instant) :
      Reached scene → Reached (select number reply time scene).2
  | inputStored {scene : Scene} (number : Nat) (values : Bindings) (time : Option Instant) :
      Reached scene → Reached (storeInput number values time scene).2

theorem proper_of_reached {scene : Scene} (reached : Reached scene) :
    Proper scene.host.conversations scene.host.events := by
  induction reached with
  | opened => exact ⟨by simp, by simp⟩
  | between _ _ _ _ _ _ proper => exact proper
  | @started scene name node time _ proper =>
    obtain ⟨h, store⟩ := scene
    rcases started_of_start h store name node time with
      ⟨conversations, events⟩ | ⟨c, opened, conversations, events⟩
    · rw [conversations, events]
      exact proper
    · rw [conversations, events]
      exact proper.greet opened
  | @selected scene number reply time _ proper =>
    obtain ⟨h, store⟩ := scene
    exact proper.selected (selected_of_select h store number reply time)
  | @inputStored scene number values time _ proper =>
    obtain ⟨h, store⟩ := scene
    obtain ⟨conversations, same | ⟨c, there, events⟩⟩ :=
      stored_of_storeInput h store number values time
    · rw [conversations, same]
      exact proper
    · rw [conversations, events, ← set_same there]
      refine proper.tell there (by simp) ?_
      rcases proper.fits _ _ there with ⟨atNode, ongoing⟩ | ⟨left, past⟩
      · exact .inl ⟨atNode, ongoing.stored⟩
      · exact .inr ⟨left, past.stored⟩

/-- Whatever a host is asked for, what it tells of a conversation begins with its start and its
first node; each further node, and the end, comes behind a reply with no other node in between; the
end is told once if the conversation has ended and otherwise not at all; and behind the end nothing
is told but that input is stored. A reply that leads into another dialogue is followed by the end of
the conversation that it was chosen in and only then by the start of the new one, or, where the call
fails, by neither. -/
theorem events_follow_protocol {scene : Scene} (reached : Reached scene) :
    (∀ number c, scene.host.conversations[number]? = some c →
      let told := TalkEvent.topics scene.host.events number
      (∃ rest, told = .dialogueStarted :: .nodeEntered :: rest ∧ .dialogueStarted ∉ rest ∧
        Answered rest) ∧
      told.count .dialogueEnded = (if c.status = .ended then 1 else 0) ∧
      ∀ before after, told = before ++ .dialogueEnded :: after →
        ∀ x ∈ after, x = .replyInputStored) ∧
    ∀ number c reply r reference node dialogue time,
      scene.host.conversations[number]? = some c → c.findReply reply = .ok r →
        r.pointer = .external reference node dialogue →
      let after := select number reply time scene
      (∀ opened, after.1 = .ok opened → ∃ statement following,
        after.2.host.conversations[opened]? = some following ∧ opened ≠ number ∧
          after.2.host.events = scene.host.events ++
            (answer number c reply statement r :: ⟨number, c.dialogue.name, .ended⟩ ::
              greeting opened following)) ∧
      ∀ e, after.1 = .error e → after.2.host.events = scene.host.events ∨
        ∃ statement, after.2.host.events =
          scene.host.events ++ [answer number c reply statement r] := by
  have proper := proper_of_reached reached
  refine ⟨fun number c there => (proper.fits number c there).protocol, ?_⟩
  intro number c reply r reference node dialogue time there offered leads
  obtain ⟨h, store⟩ := scene
  dsimp only at there ⊢
  have inside : number < h.conversations.length := (List.getElem?_eq_some_iff.mp there).1
  -- the reply in question is the one that was chosen, so that it leads elsewhere
  have unique {c' : Conversation} {r' : Reply} (there' : h.conversations[number]? = some c')
      (offered' : c'.findReply reply = .ok r') : c' = c ∧ r' = r := by
    obtain rfl : c' = c := Option.some.inj (there'.symm.trans there)
    exact ⟨rfl, Except.ok.inj (offered'.symm.trans offered)⟩
  have selected := selected_of_select h store number reply time
  generalize select number reply time ⟨h, store⟩ = after at selected
  obtain ⟨result, scene⟩ := after
  dsimp only at selected ⊢
  generalize scene.host.conversations = conversations at selected
  generalize scene.host.events = events at selected
  cases selected with
  | refused e => exact ⟨nofun, fun _ _ => .inl rfl⟩
  | stuck e random statement there' offered' =>
    obtain ⟨rfl, rfl⟩ := unique there' offered'
    exact ⟨nofun, fun _ _ => .inr ⟨statement, rfl⟩⟩
  | entered _ _ _ there' offered' within =>
    obtain ⟨rfl, rfl⟩ := unique there' offered'
    cases leads.symm.trans within
  | ended _ there' offered' within =>
    obtain ⟨rfl, rfl⟩ := unique there' offered'
    cases leads.symm.trans within
  | @followed _ following _ statement there' offered' opened =>
    obtain ⟨rfl, rfl⟩ := unique there' offered'
    refine ⟨fun opened same => ?_, nofun⟩
    cases same
    exact ⟨statement, following, by simp, Nat.ne_of_gt inside, rfl⟩

/-- A conversation that is led into another dialogue: what is told of each. -/
theorem events_of_reply_to_other_dialogue :
    let elsewhere : Reply := ⟨1, none, .external "b" "start" "b", []⟩
    let a : Dialogue := ⟨"a", [⟨⟨"start", none, []⟩, ⟨[], [elsewhere]⟩⟩]⟩
    let b : Dialogue := ⟨"b", [⟨⟨"start", none, []⟩, ⟨[], []⟩⟩]⟩
    let store : LiveStore := .ofStore (.ofVariables ⟨"Ann", "UTC"⟩ []) 0 []
    let opened : Scene := ⟨⟨[("a", a), ("b", b)], .empty, .ofDraws [], true, [], []⟩, store⟩
    let scene := (storeInput 0 [("age", .int 4)] none (start "a" none none opened).2).2
    Reached scene ∧ ∃ c ended following after, scene.host.conversations = [c] ∧
      select 0 1 none scene = (.ok 1, after) ∧ after.host.conversations = [ended, following] ∧
      TalkEvent.topics after.host.events 0 =
        [.dialogueStarted, .nodeEntered, .replyInputStored, .replySelected, .dialogueEnded] ∧
      TalkEvent.topics after.host.events 1 = [.dialogueStarted, .nodeEntered] ∧
      (TalkEvent.topics after.host.events 0).count .dialogueEnded =
        (if ended.status = .ended then 1 else 0) ∧
      ∃ statement, after.host.events = scene.host.events ++
        (answer 0 c 1 statement elsewhere :: ⟨0, c.dialogue.name, .ended⟩ ::
          greeting 1 following) := by
  intro elsewhere a b store opened scene
  have reached : Reached scene := .inputStored 0 _ none (.started "a" none none (.opened _ _ _ _ _))
  have shown : (scene.host.conversations.map fun c => (c.findReply 1).toOption.map Reply.pointer) =
      [some elsewhere.pointer] := by decide +kernel
  obtain ⟨c, here, offered⟩ := List.map_eq_singleton_iff.mp shown
  simp only [Option.map_eq_some_iff, toOption_eq_some_iff] at offered
  obtain ⟨r, offered, leads⟩ := offered
  have summary : (fun after : Except TalkError Nat × Scene => (after.1.toOption,
      TalkEvent.topics after.2.host.events 0, TalkEvent.topics after.2.host.events 1))
      (select 0 1 none scene) = (some 1,
        [.dialogueStarted, .nodeEntered, .replyInputStored, .replySelected, .dialogueEnded],
        [.dialogueStarted, .nodeEntered]) := by decide +kernel
  have two : (select 0 1 none scene).2.host.conversations.length = 2 := by decide +kernel
  have later := Reached.selected 0 1 none reached
  obtain ⟨told, _⟩ := (events_follow_protocol reached).2 0 c 1 r "b" "start" "b" none
    (by rw [here]; rfl) offered leads
  clear_value scene
  generalize select 0 1 none scene = outcome at *
  obtain ⟨result, after⟩ := outcome
  simp only [Prod.mk.injEq, toOption_eq_some_iff] at summary
  obtain ⟨rfl, first, second⟩ := summary
  obtain ⟨ended, following, both⟩ := List.length_eq_two.mp two
  obtain ⟨protocol, _⟩ := events_follow_protocol later
  obtain ⟨statement, other, there, _, events⟩ := told 1 rfl
  rw [both] at there
  cases there
  rw [answer, leads] at events
  exact ⟨reached, c, ended, following, after, here, rfl, both, first, second,
    (protocol 0 ended (by rw [both]; rfl)).2.1, statement, events⟩

end Hosting

end Parley
