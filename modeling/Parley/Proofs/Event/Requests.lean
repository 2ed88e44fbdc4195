import Mathlib.Data.List.Nodup
import Parley.Event.Bus
import Parley.Proofs.Event.History
import Parley.Proofs.Outcome

/-!
A bus and its history. What a bus is asked for, by its users or by a handler, is noted, and the bus
stays what its history says: those are subscribed that have been and have not been taken away since.
-/
namespace Parley

open BusNotice

/-! Subscriptions in their order -/

namespace Subscription

variable {s t : Subscription} {subscriptions : List Subscription}

theorem mem_insert : t ∈ s.insert subscriptions ↔ t = s ∨ t ∈ subscriptions := by
  induction subscriptions with
  | nil => simp [insert]
  | cons first rest ih =>
    rw [insert]
    split
    · exact List.mem_cons
    · rw [List.mem_cons, ih, List.mem_cons]
      exact or_left_comm

theorem ordered_insert (ordered : subscriptions.Pairwise Before)
    (latest : ∀ t ∈ subscriptions, t.number < s.number) :
    (s.insert subscriptions).Pairwise Before := by
  induction subscriptions with
  | nil => exact List.pairwise_singleton _ _
  | cons first rest ih =>
    obtain ⟨above, later⟩ := List.pairwise_cons.mp ordered
    rw [insert]
    split
    · rename_i higher
      constructor
      · intro t member
        rcases List.mem_cons.mp member with rfl | behind
        · exact .inl higher
        · rcases above t behind with lower | ⟨same, _⟩
          · exact .inl (Int.lt_trans lower higher)
          · exact .inl (same ▸ higher)
      · exact ordered
    · rename_i higher
      constructor
      · intro t member
        rcases mem_insert.mp member with rfl | behind
        · have newer := latest first (by simp)
          unfold Before
          omega
        · exact above t behind
      · exact ih later fun t member => latest t (by simp [member])

end Subscription

/-! What is asked for -/

def BusRecord.calling : BusRecord → Option (Subscription × Event)
  | .called s event => some (s, event)
  | _ => none

/-- Whether an action makes a subscription that does not keep its handler alive. -/
def BusAction.isWeak : BusAction → Bool
  | .subscribe _ _ _ _ weak => weak
  | _ => false

def HandlerStep.isWeak : HandlerStep → Bool
  | .act action => action.isWeak
  | _ => false

/-- Whether no handler makes a subscription that does not keep its handler alive. -/
def Strong (scripts : List (String × List (List HandlerStep))) : Prop :=
  ∀ entry ∈ scripts, ∀ steps ∈ entry.2, ∀ step ∈ steps, step.isWeak = false

namespace Bus

variable {b b' b'' : Bus} {past notices more : List BusNotice} {s t : Subscription} {event : Event}

/-- Whether a bus is what its history says. Subscriptions that are spent stay until the dispatch
that they are spent in is over: `past` is the history when it began. -/
structure Sound (past : List BusNotice) (b : Bus) : Prop where
  begun : past <+: b.history
  made : (b.history.filterMap making).map Subscription.number = List.range b.subscribed
  published : (b.history.filterMap publication).map Event.number = List.range b.published
  called : ∀ c ∈ b.history.filterMap BusNotice.calling, c.1 ∈ b.history.filterMap making
  recorded : b.records.filterMap BusRecord.calling = b.history.filterMap calling
  ordered : b.subscriptions.Pairwise Subscription.Before
  members : ∀ s, s ∈ b.subscriptions ↔ Kept b.history s ∧ ¬ Spent past s
  strong : ∀ s ∈ b.history.filterMap making, s.weak = false
  scripts : Strong b.scripts

namespace Sound

theorem number_lt (sound : b.Sound past) (made : s ∈ b.history.filterMap making) :
    s.number < b.subscribed := by
  have member := List.mem_map_of_mem (f := Subscription.number) made
  rw [sound.made] at member
  exact List.mem_range.mp member

theorem eq_of_number (sound : b.Sound past) (made : s ∈ b.history.filterMap making)
    (made' : t ∈ b.history.filterMap making) (same : s.number = t.number) : s = t := by
  have apart : ((b.history.filterMap making).map Subscription.number).Nodup := by
    rw [sound.made]
    exact List.nodup_range
  exact List.inj_on_of_nodup_map apart made made' same

/-- What a bus is besides its subscriptions and events does not matter. -/
theorem others (sound : b.Sound past) (dispatches : List Dispatch) (owned : List String)
    (consumed : Bool) (pending : List Event) :
    ({ b with dispatches, owned, consumed, pending } : Bus).Sound past :=
  ⟨sound.begun, sound.made, sound.published, sound.called, sound.recorded, sound.ordered,
    sound.members, sound.strong, sound.scripts⟩

/-- Something happens that makes no subscription, publishes and calls nothing, and takes some
subscriptions away. -/
theorem removed (sound : b.Sound past) {n : BusNotice} {subscriptions : List Subscription}
    (still : n.making = none ∧ n.publication = none ∧ n.calling = none)
    (ordered : subscriptions.Pairwise Subscription.Before)
    (left : ∀ s, s ∈ subscriptions ↔ s ∈ b.subscriptions ∧ ¬ n.Removes s) :
    ({ b.note n with subscriptions } : Bus).Sound past := by
  obtain ⟨making, publication, calling⟩ := still
  constructor
  · exact sound.begun.trans (List.prefix_append _ _)
  · exact (filterMap_concat_of_none making).symm ▸ sound.made
  · exact (filterMap_concat_of_none publication).symm ▸ sound.published
  · exact (filterMap_concat_of_none making).symm ▸
      (filterMap_concat_of_none calling).symm ▸ sound.called
  · exact (filterMap_concat_of_none calling).symm ▸ sound.recorded
  · exact ordered
  · intro s
    have other : n ≠ .subscribed s := by
      rintro rfl
      cases making
    rw [left, sound.members]
    show _ ↔ Kept (b.history ++ [n]) s ∧ _
    rw [kept_concat]
    simp only [other, false_or]
    exact and_right_comm
  · exact (filterMap_concat_of_none making).symm ▸ sound.strong
  · exact sound.scripts

/-- Something happens that leaves the subscriptions and events alone. -/
theorem noted (sound : b.Sound past) {n : BusNotice}
    (still : n.making = none ∧ n.publication = none ∧ n.calling = none)
    (stays : ∀ s ∈ b.subscriptions, ¬ n.Removes s) : (b.note n).Sound past :=
  sound.removed still sound.ordered fun s =>
    ⟨fun member => ⟨member, stays s member⟩, And.left⟩

/-- Something is recorded that is no call. -/
theorem recording (sound : b.Sound past) {r : BusRecord} (silent : r.calling = none) :
    (b.record r).Sound past := by
  refine ⟨sound.begun, sound.made, sound.published, sound.called, ?_, sound.ordered,
    sound.members, sound.strong, sound.scripts⟩
  show (b.records ++ [r]).filterMap BusRecord.calling = _
  rw [List.filterMap_append, List.filterMap_cons_none silent, List.filterMap_nil, List.append_nil]
  exact sound.recorded

end Sound

/-- What comes of a bus when some things have happened. -/
structure Grows (past : List BusNotice) (b b' : Bus) (notices : List BusNotice) : Prop where
  history : b'.history = b.history ++ notices
  pending : b'.pending = b.pending ++ notices.filterMap publication
  consumed : b'.consumed = true ↔ b.consumed = true ∨ ∃ event, .consumed event ∈ notices
  sound : b'.Sound past

theorem Grows.refl (sound : b.Sound past) : Grows past b b [] :=
  ⟨(List.append_nil _).symm, (List.append_nil _).symm, by simp, sound⟩

theorem Grows.trans (first : Grows past b b' notices) (later : Grows past b' b'' more) :
    Grows past b b'' (notices ++ more) := by
  constructor
  · rw [later.history, first.history, List.append_assoc]
  · rw [later.pending, first.pending, List.filterMap_append, List.append_assoc]
  · rw [later.consumed, first.consumed]
    simp only [List.mem_append, exists_or]
    exact or_assoc
  · exact later.sound

/-! Requests -/

theorem grows_subscribe (sound : b.Sound past) (handler : String) (topic : Topic) (priority : Int)
    (oneShot : Bool) :
    Grows past b (b.subscribe handler topic priority oneShot false)
      [.subscribed ⟨b.subscribed, topic, handler, priority, oneShot, false⟩] := by
  generalize new : (⟨b.subscribed, topic, handler, priority, oneShot, false⟩ : Subscription) = s
  have number : s.number = b.subscribed := new ▸ rfl
  have strong : s.weak = false := new ▸ rfl
  have making : (b.history ++ [BusNotice.subscribed s]).filterMap making =
      b.history.filterMap making ++ [s] := by
    rw [List.filterMap_append]
    rfl
  have older {t : Subscription} (made : t ∈ b.history.filterMap BusNotice.making) :
      t.number < s.number := number ▸ sound.number_lt made
  have history : (b.subscribe handler topic priority oneShot false).history =
      b.history ++ [.subscribed s] := new ▸ rfl
  have subscriptions : (b.subscribe handler topic priority oneShot false).subscriptions =
      s.insert b.subscriptions := new ▸ rfl
  constructor
  · exact history
  · exact (List.append_nil _).symm
  · simp [subscribe, note]
  constructor
  · rw [history]
    exact sound.begun.trans (List.prefix_append _ _)
  · rw [history, making, List.map_append, sound.made, List.map_singleton, number]
    exact List.range_succ.symm
  · rw [history, filterMap_concat_of_none rfl]
    exact sound.published
  · rw [history, filterMap_concat_of_none rfl, making]
    intro c member
    exact List.mem_append_left _ (sound.called c member)
  · rw [history, filterMap_concat_of_none rfl]
    exact sound.recorded
  · rw [subscriptions]
    apply Subscription.ordered_insert sound.ordered
    intro t member
    exact older ((sound.members t).mp member).1.made
  · intro t
    have fresh : t = s → ¬ Spent past t := by
      rintro rfl ⟨_, e, member⟩
      exact Nat.lt_irrefl _ (older (sound.called _ ((sound.begun.filterMap _).subset member)))
    rw [subscriptions, history, Subscription.mem_insert, sound.members, kept_concat]
    simp only [Removes, not_false_eq_true, and_true, BusNotice.subscribed.injEq, eq_comm (a := s)]
    constructor
    · rintro (same | ⟨kept, unspent⟩)
      · exact ⟨.inl same, fresh same⟩
      · exact ⟨.inr kept, unspent⟩
    · rintro ⟨same | kept, unspent⟩
      · exact .inl same
      · exact .inr ⟨kept, unspent⟩
  · rw [history, making]
    intro t member
    rcases List.mem_append.mp member with before | last
    · exact sound.strong t before
    · rw [List.mem_singleton.mp last]
      exact strong
  · exact sound.scripts

theorem grows_enqueue (sound : b.Sound past) (topic : Topic) (data : Bindings) :
    Grows past b (b.enqueue topic data) [.published ⟨b.published, topic, data⟩] := by
  generalize new : (⟨b.published, topic, data⟩ : Event) = event
  have number : event.number = b.published := new ▸ rfl
  have publication : (b.history ++ [BusNotice.published event]).filterMap publication =
      b.history.filterMap publication ++ [event] := by
    rw [List.filterMap_append]
    rfl
  have history : (b.enqueue topic data).history = b.history ++ [.published event] := new ▸ rfl
  constructor
  · exact history
  · exact new ▸ rfl
  · simp [enqueue, note]
  constructor
  · rw [history]
    exact sound.begun.trans (List.prefix_append _ _)
  · rw [history, filterMap_concat_of_none rfl]
    exact sound.made
  · rw [history, publication, List.map_append, sound.published, List.map_singleton, number]
    exact List.range_succ.symm
  · rw [history, filterMap_concat_of_none rfl, filterMap_concat_of_none rfl]
    exact sound.called
  · rw [history, filterMap_concat_of_none rfl]
    exact sound.recorded
  · exact sound.ordered
  · intro t
    show t ∈ b.subscriptions ↔ _
    rw [history, kept_concat, sound.members]
    simp [Removes]
  · rw [history, filterMap_concat_of_none rfl]
    exact sound.strong
  · exact sound.scripts

theorem mem_keep {topic : Topic} {p : Subscription → Bool} :
    s ∈ (b.keep topic p).subscriptions ↔
      s ∈ b.subscriptions ∧ ¬ (s.topic = topic ∧ p s = false) := by
  simp only [keep, List.mem_filter, Bool.or_eq_true, bne_iff_ne]
  grind

theorem grows_clear (sound : b.Sound past) (topic : Option Topic) :
    Grows past b (b.clear topic) [.cleared topic] := by
  cases topic with
  | none =>
    refine ⟨rfl, (List.append_nil _).symm, by simp [clear, note], ?_⟩
    exact (sound.removed (n := .cleared none) ⟨rfl, rfl, rfl⟩ .nil (by simp [Removes])).others
      _ _ _ _
  | some topic =>
    refine ⟨rfl, (List.append_nil _).symm, by simp [clear, keep, note], ?_⟩
    have left (s : Subscription) : s ∈ (b.keep topic fun _ => false).subscriptions ↔
        s ∈ b.subscriptions ∧ ¬ Removes s (.cleared (some topic)) := by
      rw [mem_keep]
      simp [Removes, eq_comm]
    exact (sound.removed ⟨rfl, rfl, rfl⟩ (sound.ordered.filter _) left).others _ _ _ _

theorem grows_unsubscribe (sound : b.Sound past) (handler : String) (topic : Topic) :
    Grows past b (b.unsubscribe handler topic) [.unsubscribed handler topic] := by
  have still : making (.unsubscribed handler topic) = none ∧
    publication (.unsubscribed handler topic) = none ∧
      calling (.unsubscribed handler topic) = none := ⟨rfl, rfl, rfl⟩
  rw [unsubscribe]
  split
  · rename_i none
    refine ⟨rfl, (List.append_nil _).symm, by simp [note], ?_⟩
    apply sound.noted still
    rintro s member ⟨_, rfl⟩
    have listener : s ∈ b.listeners s.topic := by simp [listeners, member]
    have empty : b.listeners s.topic = [] := List.isEmpty_iff.mp none
    rw [empty] at listener
    cases listener
  · refine ⟨rfl, (List.append_nil _).symm, by simp [keep, note], ?_⟩
    have left (s : Subscription) : s ∈ (b.keep topic (·.handler != handler)).subscriptions ↔
        s ∈ b.subscriptions ∧ ¬ Removes s (.unsubscribed handler topic) := by
      rw [mem_keep]
      simp only [Removes, bne_eq_false_iff_eq]
      grind
    exact (sound.removed still (sound.ordered.filter _) left).others _ _ _ _

theorem withOwned_apply (handler : String) (f : Bus → Bus) (b : Bus) :
    (withOwned handler f b).2 = if b.owned.contains handler then f b else b := by
  rw [withOwned, Run.bind_apply, Run.get_apply, Run.andThen_ok]
  split <;> rfl

/-- An action is one request at most, and publishes nothing if that is not what it is for. -/
theorem grows_perform (sound : b.Sound past) (action : BusAction) (strong : action.isWeak = false) :
    ∃ notices, Grows past b (perform action b).2 notices ∧ (notices = [] ∨
      ∃ n : BusNotice, notices = [n] ∧ n.Request ∧
        (n.publication = none ∨ ∃ topic data, action = .publish topic data)) := by
  have owned (handler : String) {f : Bus → Bus} {n : BusNotice}
      (grows : Grows past b (f b) [n]) (request : n.Request) (quiet : n.publication = none) :
      ∃ notices, Grows past b (withOwned handler f b).2 notices ∧ (notices = [] ∨
        ∃ n : BusNotice, notices = [n] ∧ n.Request ∧
          (n.publication = none ∨ ∃ topic data, action = .publish topic data)) := by
    rw [withOwned_apply]
    split
    · exact ⟨[n], grows, .inr ⟨n, rfl, request, .inl quiet⟩⟩
    · exact ⟨[], .refl sound, .inl rfl⟩
  cases action with
  | subscribe handler topic priority oneShot weak =>
    obtain rfl : weak = false := strong
    exact owned handler (grows_subscribe sound handler topic priority oneShot) trivial rfl
  | unsubscribe handler topic =>
    exact owned handler (grows_unsubscribe sound handler topic) trivial rfl
  | publish topic data =>
    exact ⟨_, grows_enqueue sound topic data, .inr ⟨_, rfl, trivial, .inr ⟨topic, data, rfl⟩⟩⟩
  | clear topic => exact ⟨_, grows_clear sound topic, .inr ⟨_, rfl, trivial, .inl rfl⟩⟩
  | release handler =>
    refine ⟨[], ?_, .inl rfl⟩
    rw [perform, withOwned_apply]
    split
    · exact ⟨(List.append_nil _).symm, (List.append_nil _).symm, by simp, sound.others _ _ _ _⟩
    · exact .refl sound

end Bus
end Parley
