import Mathlib.Data.List.Forall2
import Parley.Proofs.Conversation.Lifecycle

/-!
Steps that fail. Whatever the failure, and wherever in the step it comes up, every conversation of
the host is left where it was, so that the step can be tried again.
-/
namespace Parley

namespace Conversation

/-- Whether a conversation has become one that is still in the same place and offers the same. Its
random numbers may have been used. -/
structure Stays (c c' : Conversation) : Prop where
  node : c'.node = c.node
  status : c'.status = c.status
  dialogue : c'.dialogue = c.dialogue
  offers : ∀ id, c'.findReply id = c.findReply id

theorem Stays.refl (c : Conversation) : c.Stays c := ⟨rfl, rfl, rfl, fun _ => rfl⟩

theorem stays_random (c : Conversation) (random : RandomSource) : c.Stays { c with random } :=
  ⟨rfl, rfl, rfl, fun _ => rfl⟩

theorem stays_all (conversations : List Conversation) :
    List.Forall₂ Stays conversations conversations :=
  List.forall₂_same.mpr fun c _ => Stays.refl c

theorem stays_set {conversations : List Conversation} {number : Nat} {c c' : Conversation}
    (there : conversations[number]? = some c) (stays : c.Stays c') :
    List.Forall₂ Stays conversations (conversations.set number c') := by
  induction conversations generalizing number with
  | nil => cases there
  | cons d rest ih =>
    cases number with
    | zero =>
      cases there
      exact .cons stays (stays_all rest)
    | succ n => exact .cons (.refl d) (ih there)

end Conversation

/-! One conversation -/

namespace Talking

variable {c : Conversation} {store : LiveStore} {time : Option Instant} {e : TalkError}
  {talk : Talk}

theorem stays_of_present {n : Node} (failed : present n time ⟨c, store⟩ = (.error e, talk)) :
    c.Stays talk.conversation := by
  rw [present_apply] at failed
  split at failed
  · cases failed
  · cases failed
    exact c.stays_random _

theorem stays_of_start {node : Option String}
    (failed : start node time ⟨c, store⟩ = (.error e, talk)) : c.Stays talk.conversation := by
  rw [start_apply] at failed
  cases found : c.findNode (node.getD "start") with
  | error e =>
    rw [found] at failed
    cases failed
    exact .refl c
  | ok n =>
    rw [found] at failed
    exact stays_of_present failed

/-- What a reply assigns is of no concern to the conversation. -/
theorem stays_of_resolveReply {reply : Int} {result : Except TalkError Pointer}
    (resolved : resolveReply reply time ⟨c, store⟩ = (result, talk)) :
    c.Stays talk.conversation := by
  rw [resolveReply_apply] at resolved
  cases found : c.findReply reply with
  | error e =>
    rw [found] at resolved
    cases resolved
    exact .refl c
  | ok r =>
    rw [found] at resolved
    cases resolved
    exact .refl c

theorem stays_of_advance {pointer : Pointer}
    (failed : advance pointer time ⟨c, store⟩ = (.error e, talk)) : c.Stays talk.conversation := by
  cases pointer with
  | external reference node dialogue =>
    cases failed
    exact .refl c
  | internal id =>
    rw [advance_internal_apply] at failed
    cases target : if (Pointer.internal id).isEnd then none else c.dialogue.node? id with
    | none =>
      rw [target] at failed
      cases failed
    | some n =>
      rw [target] at failed
      cases presented : present n time ⟨c, store⟩ with
      | mk result after =>
        simp only [presented] at failed
        cases result with
        | ok node => cases failed
        | error e =>
          cases failed
          exact stays_of_present presented

end Talking

/-! All conversations of a host -/

namespace Hosting

/-- The ways to go on in a conversation: to start it, to resolve a reply or to follow a pointer in
it, or to have the host select a reply. -/
inductive Step where
  | start (node : Option String)
  | resolve (reply : Int)
  | advance (pointer : Pointer)
  | select (reply : Int)

def Step.take (number : Nat) (time : Option Instant) : Step → Hosting Unit
  | start node => do let _ ← within number (Talking.start node time)
  | resolve reply => do let _ ← within number (Talking.resolveReply reply time)
  | advance pointer => do let _ ← within number (Talking.advance pointer time)
  | select reply => do let _ ← Hosting.select number reply time

variable {α : Type} {h : Host} {store : LiveStore} {number : Nat} {time : Option Instant}
  {e : TalkError} {after : Scene}

theorem fails_of_discard {x : Hosting α} {scene : Scene}
    (failed : (do let _ ← x : Hosting Unit) scene = (.error e, after)) :
    x scene = (.error e, after) := by
  rw [Run.bind_apply] at failed
  cases outcome : x scene with
  | mk result next =>
    rw [outcome] at failed
    cases result with
    | ok a => cases failed
    | error e =>
      cases failed
      rfl

/-- What fails in one conversation tells of nothing and leaves all of them where they were, if it
leaves that one where it was. -/
theorem stays_of_within {action : Talking α}
    (stays : ∀ c talk, action ⟨c, store⟩ = (.error e, talk) → c.Stays talk.conversation)
    (failed : (do let _ ← within number action : Hosting Unit) ⟨h, store⟩ = (.error e, after)) :
    List.Forall₂ Conversation.Stays h.conversations after.host.conversations ∧
      after.host.events = h.events := by
  have failed := fails_of_discard failed
  cases there : h.conversations[number]? with
  | none =>
    rw [within_of_unknown there] at failed
    cases failed
    exact ⟨Conversation.stays_all _, rfl⟩
  | some c =>
    rw [within_apply there] at failed
    obtain ⟨outcome, rfl⟩ := Prod.mk.inj failed
    exact ⟨Conversation.stays_set there (stays c _ (Prod.ext outcome rfl)), rfl⟩

theorem stays_of_selected {reply : Int} {conversations : List Conversation}
    {events : List TalkEvent}
    (selected : Selected h number reply (.error e) conversations events) :
    List.Forall₂ Conversation.Stays h.conversations conversations ∧ (events = h.events ∨
      ∃ c r statement, h.conversations[number]? = some c ∧ c.findReply reply = .ok r ∧
        events = h.events ++ [answer number c reply statement r]) := by
  cases selected with
  | refused => exact ⟨Conversation.stays_all _, .inl rfl⟩
  | @stuck c r _ random statement there offered =>
    constructor
    · exact Conversation.stays_set there (c.stays_random random)
    · exact .inr ⟨c, r, statement, there, offered, rfl⟩

/-- A step that fails moves no conversation, ends none and adds none: each is at the node it was at,
in the state it was in, and offers the replies it offered. Nothing has been told of the step, unless
a reply was selected and what it leads to failed; then just that reply has been told of. -/
theorem failed_step_moves_nothing {step : Step}
    (failed : step.take number time ⟨h, store⟩ = (.error e, after)) :
    List.Forall₂ Conversation.Stays h.conversations after.host.conversations ∧
      (after.host.events = h.events ∨
        ∃ reply c r statement, step = .select reply ∧ h.conversations[number]? = some c ∧
          c.findReply reply = .ok r ∧
            after.host.events = h.events ++ [answer number c reply statement r]) := by
  cases step with
  | start node =>
    obtain ⟨stays, silent⟩ := stays_of_within (fun _ _ => Talking.stays_of_start) failed
    exact ⟨stays, .inl silent⟩
  | resolve reply =>
    obtain ⟨stays, silent⟩ := stays_of_within (fun _ _ => Talking.stays_of_resolveReply) failed
    exact ⟨stays, .inl silent⟩
  | advance pointer =>
    obtain ⟨stays, silent⟩ := stays_of_within (fun _ _ => Talking.stays_of_advance) failed
    exact ⟨stays, .inl silent⟩
  | select reply =>
    have selected := selected_of_select h store number reply time
    rw [fails_of_discard failed] at selected
    obtain ⟨stays, silent | ⟨c, r, statement, there, offered, told⟩⟩ := stays_of_selected selected
    · exact ⟨stays, .inl silent⟩
    · exact ⟨stays, .inr ⟨reply, c, r, statement, rfl, there, offered, told⟩⟩

/-- A reply that assigns and leads into a dialogue whose first node divides by zero: the reply has
been told of and can be selected again. -/
theorem failed_step_into_other_dialogue :
    let onward : Reply := ⟨1, none, .external "b" "start" "b", [.set ⟨"met", .literal (.int 1)⟩]⟩
    let quotient : Expr := .binary .div (.literal (.int 1)) (.literal (.int 0))
    let a : Dialogue := ⟨"a", [⟨⟨"start", none, []⟩, ⟨[], [onward]⟩⟩]⟩
    let b : Dialogue := ⟨"b", [⟨⟨"start", none, []⟩, ⟨[.command (.set ⟨"x", quotient⟩)], []⟩⟩]⟩
    let store : LiveStore := .ofStore (.ofVariables ⟨"Ann", "UTC"⟩ []) 0 []
    let opened : Scene := ⟨⟨[("a", a), ("b", b)], .empty, .ofDraws [], true, [], []⟩, store⟩
    let scene := (start "a" none none opened).2
    ∃ c c' r statement after, scene.host.conversations = [c] ∧
      (Step.select 1).take 0 none scene =
        (.error (.failure (.evaluation .divisionByZero)), after) ∧
      after.host.conversations = [c'] ∧ c.Stays c' ∧ c'.status = .active ∧
      c'.findReply 1 = .ok r ∧
      after.host.events = scene.host.events ++ [answer 0 c 1 statement r] := by
  intro onward quotient a b store opened scene
  have error : errorIn ((Step.select 1).take 0 none scene).1 =
      some (.failure (.evaluation .divisionByZero)) := by decide +kernel
  have active : scene.host.conversations.map Conversation.status = [.active] := by decide +kernel
  have told : ((Step.select 1).take 0 none scene).2.host.events.length = 3 ∧
      scene.host.events.length = 2 := by decide +kernel
  obtain ⟨c, here, shown⟩ := List.map_eq_singleton_iff.mp active
  clear_value scene
  obtain ⟨host, live⟩ := scene
  generalize outcome : (Step.select 1).take 0 none ⟨host, live⟩ = result at *
  obtain ⟨result, after⟩ := result
  obtain rfl := errorIn_eq_some_iff.mp error
  obtain ⟨stays, silent | ⟨_, d, r, statement, chosen, there, offered, events⟩⟩ :=
    failed_step_moves_nothing outcome
  · have same : after.host.events.length = host.events.length := congrArg _ silent
    dsimp only at told
    omega
  · cases chosen
    rw [here] at there stays
    cases there
    obtain ⟨c', _, stay, none_other, moved⟩ := List.forall₂_cons_left_iff.mp stays
    cases none_other
    exact ⟨c, c', r, statement, after, here, rfl, moved, stay, stay.status.trans shown,
      (stay.offers 1).trans offered, events⟩

end Hosting

end Parley
