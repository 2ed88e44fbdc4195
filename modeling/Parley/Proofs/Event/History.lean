import Mathlib.Data.List.Induction
import Parley.Event.Basic

/-!
What the history of a bus tells: which events have been published and which dispatched, which
subscriptions stand, and whether all of it is in order. A history is in order if the events are
dispatched as they were published, one after the other, each to the subscriptions that stand when
its dispatch begins and to no others, until one of them consumes it.
-/
namespace Parley

/-- Whether a subscription is called before another. -/
def Subscription.Before (s t : Subscription) : Prop :=
  t.priority < s.priority ∨ s.priority = t.priority ∧ s.number < t.number

namespace BusNotice

def making : BusNotice → Option Subscription
  | .subscribed s => some s
  | _ => none

def publication : BusNotice → Option Event
  | .published event => some event
  | _ => none

def opening : BusNotice → Option Event
  | .opened event => some event
  | _ => none

def calling : BusNotice → Option (Subscription × Event)
  | .called s event => some (s, event)
  | _ => none

/-- Whether a notice takes a subscription away. -/
def Removes (s : Subscription) : BusNotice → Prop
  | .unsubscribed handler topic => handler = s.handler ∧ topic = s.topic
  | .cleared none => True
  | .cleared (some topic) => topic = s.topic
  | _ => False

/-- Whether a notice is of something that a bus is asked for. -/
def Request : BusNotice → Prop
  | .subscribed _ | .unsubscribed .. | .cleared _ | .published _ => True
  | _ => False

/-- Whether a notice is of something that a handler does in a call. -/
def During (event : Event) : BusNotice → Prop
  | .consumed e => e = event
  | n => n.Request

end BusNotice

open BusNotice

variable {history : List BusNotice} {s : Subscription}

/-- Whether a subscription has been made and not been taken away since. -/
def Kept (history : List BusNotice) (s : Subscription) : Prop :=
  ∃ earlier later, history = earlier ++ .subscribed s :: later ∧ ∀ n ∈ later, ¬ n.Removes s

/-- Whether a subscription was for one call and has been called. -/
def Spent (history : List BusNotice) (s : Subscription) : Prop :=
  s.oneShot = true ∧ ∃ event, (s, event) ∈ history.filterMap calling

/-- Whether a subscription stands after a history. -/
def Standing (history : List BusNotice) (s : Subscription) : Prop :=
  Kept history s ∧ ¬ Spent history s

/-- Whether some subscriptions are those to a topic that stand, in the order of their calls. -/
structure Due (history : List BusNotice) (topic : Topic) (listeners : List Subscription) :
    Prop where
  ordered : listeners.Pairwise Subscription.Before
  standing : ∀ s, s ∈ listeners ↔ s.topic = topic ∧ Standing history s

/-- The calls by which an event goes to some subscriptions, with what the handlers do. -/
inductive Delivery (event : Event) : List Subscription → List BusNotice → Prop
  | done : Delivery event [] []
  | stopped {s : Subscription} {rest : List Subscription} {inner : List BusNotice} :
      (∀ n ∈ inner, n.During event) → .consumed event ∈ inner →
        Delivery event (s :: rest) (.called s event :: inner)
  | passed {s : Subscription} {rest : List Subscription} {inner calls : List BusNotice} :
      (∀ n ∈ inner, n.During event) → .consumed event ∉ inner → Delivery event rest calls →
        Delivery event (s :: rest) (.called s event :: (inner ++ calls))

/-- What is noted of the dispatch of an event. -/
def served (event : Event) (calls : List BusNotice) : List BusNotice :=
  .opened event :: (calls ++ [.closed event])

/-- Whether a history is in order, and some events wait after it. -/
inductive Orderly : List BusNotice → List Event → Prop
  | begun : Orderly [] []
  | asked {history : List BusNotice} {waiting : List Event} {n : BusNotice} :
      Orderly history waiting → n.Request →
        Orderly (history ++ [n]) (waiting ++ n.publication.toList)
  | dispatched {history calls : List BusNotice} {event : Event} {waiting : List Event}
      {listeners : List Subscription} :
      Orderly history (event :: waiting) → Due history event.topic listeners →
        Delivery event listeners calls →
          Orderly (history ++ served event calls) (waiting ++ calls.filterMap publication)

/-- What is read off a history does not change by a notice that it does not regard. -/
theorem filterMap_concat_of_none {α : Type} {f : BusNotice → Option α} {n : BusNotice}
    (silent : f n = none) : (history ++ [n]).filterMap f = history.filterMap f := by
  rw [List.filterMap_append, List.filterMap_cons_none silent, List.filterMap_nil, List.append_nil]

/-! Subscriptions -/

theorem kept_concat {n : BusNotice} :
    Kept (history ++ [n]) s ↔ n = .subscribed s ∨ Kept history s ∧ ¬ n.Removes s := by
  constructor
  · rintro ⟨earlier, later, same, kept⟩
    rcases List.eq_nil_or_concat later with rfl | ⟨more, last, rfl⟩
    · obtain ⟨_, same⟩ := List.append_inj' same rfl
      cases same
      exact .inl rfl
    · rw [List.concat_eq_append] at same kept
      rw [← List.cons_append, ← List.append_assoc] at same
      obtain ⟨rfl, last⟩ := List.append_inj' same rfl
      cases last
      exact .inr ⟨⟨earlier, more, rfl, fun m member => kept m (by simp [member])⟩,
        kept n (by simp)⟩
  · rintro (rfl | ⟨⟨earlier, later, rfl, kept⟩, stays⟩)
    · exact ⟨history, [], rfl, by simp⟩
    · refine ⟨earlier, later ++ [n], by simp, fun m member => ?_⟩
      rcases List.mem_append.mp member with before | last
      · exact kept m before
      · rw [List.mem_singleton.mp last]
        exact stays

theorem Kept.made (kept : Kept history s) : s ∈ history.filterMap making := by
  obtain ⟨earlier, later, rfl, _⟩ := kept
  simp [making]

/-! Deliveries -/

namespace Delivery

variable {event : Event} {listeners : List Subscription} {calls inner : List BusNotice}

theorem quiet (during : ∀ n ∈ inner, n.During event) :
    inner.filterMap opening = [] ∧ inner.filterMap calling = [] := by
  constructor <;>
  · rw [List.filterMap_eq_nil_iff]
    intro n member
    have doing := during n member
    cases n <;> first | rfl | cases doing

theorem opening_eq_nil (delivery : Delivery event listeners calls) :
    calls.filterMap opening = [] := by
  induction delivery with
  | done => rfl
  | stopped during _ =>
    rw [List.filterMap_cons_none rfl]
    exact (quiet during).1
  | passed during _ _ ih =>
    rw [List.filterMap_cons_none rfl, List.filterMap_append, (quiet during).1, ih]
    rfl

/-- An event goes to the first of those that it is for, to all of them if no one consumes it. -/
theorem called (delivery : Delivery event listeners calls) :
    ∃ reached, reached <+: listeners ∧ calls.filterMap calling = reached.map (·, event) := by
  induction delivery with
  | done => exact ⟨[], List.prefix_refl _, rfl⟩
  | @stopped s rest _ during _ =>
    refine ⟨[s], by simp, ?_⟩
    rw [List.filterMap_cons_some (f := calling) rfl, (quiet during).2]
    rfl
  | @passed s _ _ _ during _ _ ih =>
    obtain ⟨reached, first, same⟩ := ih
    refine ⟨s :: reached, (List.prefix_cons_inj s).mpr first, ?_⟩
    rw [List.filterMap_cons_some (f := calling) rfl, List.filterMap_append, (quiet during).2,
      same]
    rfl

theorem opening_served (delivery : Delivery event listeners calls) :
    (served event calls).filterMap opening = [event] := by
  rw [served, List.filterMap_cons_some (f := opening) rfl, List.filterMap_append,
    delivery.opening_eq_nil]
  rfl

end Delivery

/-- What is noted around the calls is no more than the beginning and the end of the dispatch. -/
theorem filterMap_served {α : Type} {f : BusNotice → Option α} {event : Event}
    {calls : List BusNotice} (opened : f (.opened event) = none)
    (closed : f (.closed event) = none) :
    (served event calls).filterMap f = calls.filterMap f := by
  rw [served, List.filterMap_cons_none opened, List.filterMap_append,
    List.filterMap_cons_none closed, List.filterMap_nil, List.append_nil]

/-! Orders -/

theorem Subscription.Before.ne {t : Subscription} (before : s.Before t) : s ≠ t := by
  rintro rfl
  rcases before with less | ⟨_, less⟩
  · exact Int.lt_irrefl _ less
  · exact Nat.lt_irrefl _ less

namespace Orderly

variable {waiting : List Event}

/-- Events are dispatched as they were published, and those that have not been dispatched wait. -/
theorem publications (orderly : Orderly history waiting) :
    history.filterMap publication = history.filterMap opening ++ waiting := by
  induction orderly with
  | begun => rfl
  | @asked history waiting n _ request ih =>
    have silent : n.opening = none := by cases n <;> first | rfl | cases request
    rw [List.filterMap_append, List.filterMap_append, ih, List.append_assoc]
    cases told : n.publication <;> simp [told, silent]
  | dispatched _ _ delivery ih =>
    rw [List.filterMap_append, List.filterMap_append, ih, delivery.opening_served,
      filterMap_served rfl rfl]
    simp

/-- No subscription that is for one call is called twice. -/
theorem called_once (orderly : Orderly history waiting) (oneShot : s.oneShot = true) :
    ((history.filterMap calling).map Prod.fst).count s ≤ 1 := by
  induction orderly with
  | begun => exact Nat.zero_le 1
  | @asked history waiting n _ request ih =>
    have silent : n.calling = none := by cases n <;> first | rfl | cases request
    simpa [silent] using ih
  | @dispatched history calls event _ listeners _ due delivery ih =>
    obtain ⟨reached, first, same⟩ := delivery.called
    have apart : reached.Nodup :=
      (due.ordered.imp fun before => before.ne).sublist first.sublist
    have here : ((calls.filterMap calling).map Prod.fst).count s = reached.count s := by
      rw [same, List.map_map]
      exact congrArg (List.count s) (List.map_id reached)
    rw [List.filterMap_append, filterMap_served rfl rfl, List.map_append, List.count_append, here]
    by_cases member : s ∈ reached
    · -- it stood when the dispatch began, so that it had not been called
      have unspent := ((due.standing s).mp (first.subset member)).2.2
      have never : ((history.filterMap calling).map Prod.fst).count s = 0 := by
        apply List.count_eq_zero_of_not_mem
        intro before
        obtain ⟨⟨_, e⟩, earlier, rfl⟩ := List.mem_map.mp before
        exact unspent ⟨oneShot, e, earlier⟩
      rw [never, Nat.zero_add]
      exact List.nodup_iff_count.mp apart s
    · rw [List.count_eq_zero_of_not_mem member]
      exact ih

end Orderly
end Parley
