import Parley.Proofs.Event.Requests

/-!
What a bus does with events. Whatever it is asked for, by its users and by the handlers that it
calls, its history is in order and those stand that are subscribed.
-/
namespace Parley

open BusNotice

namespace Bus

variable {b b' : Bus} {past notices more : List BusNotice} {s : Subscription} {event : Event}

/-! Calls -/

theorem grows_performStep (sound : b.Sound past) (handler : String) (event : Event)
    (step : HandlerStep) (strong : step.isWeak = false) :
    ∃ inner, Grows past b (performStep handler event step b).2 inner ∧
      (∀ n ∈ inner, n.During event) ∧ inner.length ≤ 1 := by
  have idle : ∃ inner, Grows past b b inner ∧ (∀ n ∈ inner, n.During event) ∧ inner.length ≤ 1 :=
    ⟨[], .refl sound, by simp, by simp⟩
  cases step with
  | consume =>
    refine ⟨[.consumed event], ?_, by simp [During], Nat.le_refl 1⟩
    refine ⟨rfl, (List.append_nil _).symm, by simp [performStep], ?_⟩
    exact (sound.noted ⟨rfl, rfl, rfl⟩ fun s _ => by simp [Removes]).others _ _ _ _
  | fail => exact idle
  | read key =>
    rw [performStep]
    cases Assoc.get? key event.data with
    | none => exact idle
    | some value =>
      refine ⟨[], ⟨(List.append_nil _).symm, (List.append_nil _).symm, by simp [record], ?_⟩,
        by simp, by simp⟩
      exact sound.recording rfl
  | act action =>
    obtain ⟨notices, grows, rfl | ⟨n, rfl, request, _⟩⟩ := grows_perform sound action strong
    · exact ⟨[], grows, by simp, by simp⟩
    · refine ⟨[n], grows, ?_, Nat.le_refl 1⟩
      intro m member
      rw [List.mem_singleton.mp member]
      cases n <;> first | exact request | cases request

theorem grows_performSteps (sound : b.Sound past) (handler : String) (event : Event)
    (steps : List HandlerStep) (strong : ∀ step ∈ steps, step.isWeak = false) :
    ∃ inner, Grows past b (performSteps handler event steps b).2 inner ∧
      (∀ n ∈ inner, n.During event) ∧ inner.length ≤ steps.length := by
  induction steps generalizing b with
  | nil =>
    refine ⟨[], ⟨(List.append_nil _).symm, (List.append_nil _).symm, by simp [performSteps, record],
      ?_⟩, by simp, by simp⟩
    exact sound.recording rfl
  | cons step rest ih =>
    obtain ⟨inner, grows, during, short⟩ :=
      grows_performStep sound handler event step (strong step (by simp))
    rw [performSteps, Run.bind_apply]
    cases outcome : performStep handler event step b with
    | mk result next =>
      rw [outcome] at grows
      cases result with
      | error e => exact ⟨inner, grows, during, by simp; omega⟩
      | ok done =>
        obtain ⟨more, later, during', short'⟩ :=
          ih grows.sound fun step member => strong step (by simp [member])
        refine ⟨inner ++ more, grows.trans later, ?_, ?_⟩
        · intro n member
          rcases List.mem_append.mp member with before | behind
          · exact during n before
          · exact during' n behind
        · rw [List.length_append, List.length_cons]
          omega

theorem stepsLeft_of_scripts (same : b'.scripts = b.scripts) : b'.stepsLeft = b.stepsLeft := by
  rw [stepsLeft, stepsLeft, same]

theorem keeps_scripts_withOwned {scripts : List (String × List (List HandlerStep))}
    (handler : String) {f : Bus → Bus} (same : ∀ b, (f b).scripts = b.scripts) :
    Run.Keeps (·.scripts = scripts) (withOwned handler f) := by
  intro b kept
  rw [withOwned_apply]
  split
  · exact (same b).trans kept
  · exact kept

theorem keeps_scripts_perform {scripts : List (String × List (List HandlerStep))}
    (action : BusAction) : Run.Keeps (·.scripts = scripts) (perform action) := by
  cases action with
  | subscribe => exact keeps_scripts_withOwned _ fun _ => rfl
  | unsubscribe =>
    apply keeps_scripts_withOwned
    intro b
    rw [unsubscribe]
    split <;> rfl
  | publish => exact fun _ kept => kept
  | clear topic => cases topic <;> exact fun _ kept => kept
  | release => exact keeps_scripts_withOwned _ fun _ => rfl

theorem keeps_scripts_performSteps {scripts : List (String × List (List HandlerStep))}
    (handler : String) (event : Event) (steps : List HandlerStep) :
    Run.Keeps (·.scripts = scripts) (performSteps handler event steps) := by
  induction steps with
  | nil => exact fun _ kept => kept
  | cons step rest ih =>
    apply Run.keeps_bind _ fun _ => ih
    cases step with
    | consume => exact fun _ kept => kept
    | fail => exact fun _ kept => kept
    | read key =>
      rw [performStep]
      cases Assoc.get? key event.data <;> exact fun _ kept => kept
    | act action => exact keeps_scripts_perform action

theorem length_insert {handler : String} {steps : List HandlerStep}
    {rest : List (List HandlerStep)} {scripts : List (String × List (List HandlerStep))}
    (found : Assoc.get? handler scripts = some (steps :: rest)) :
    ((Assoc.insert handler rest scripts).flatMap fun (_, calls) => calls.flatten).length +
      steps.length = (scripts.flatMap fun (_, calls) => calls.flatten).length := by
  induction scripts with
  | nil => cases found
  | cons first others ih =>
    obtain ⟨name, calls⟩ := first
    rw [Assoc.get?] at found
    rw [Assoc.insert]
    split at found
    · rename_i same
      cases found
      rw [if_pos same, List.flatMap_cons, List.flatMap_cons, List.length_append,
        List.length_append]
      dsimp only
      rw [List.flatten_cons, List.length_append]
      omega
    · rename_i other
      rw [if_neg other, List.flatMap_cons, List.flatMap_cons, List.length_append,
        List.length_append, ← ih found]
      omega

/-- What a handler does in its next call is taken off what is left to be done. -/
theorem stepsLeft_nextScript (b : Bus) (handler : String) :
    (b.nextScript handler).2.stepsLeft + (b.nextScript handler).1.length = b.stepsLeft := by
  rw [nextScript]
  split
  · rename_i found
    exact length_insert found
  · rfl

theorem grows_nextScript (sound : b.Sound past) (handler : String) :
    Grows past b (b.nextScript handler).2 [] ∧
      ∀ step ∈ (b.nextScript handler).1, step.isWeak = false := by
  rw [nextScript]
  split
  · rename_i steps rest found
    have all := sound.scripts _ (Assoc.mem_of_get? found)
    constructor
    · refine ⟨(List.append_nil _).symm, (List.append_nil _).symm, by simp, ?_⟩
      refine ⟨sound.begun, sound.made, sound.published, sound.called, sound.recorded, sound.ordered,
        sound.members, sound.strong, ?_⟩
      intro entry member
      rcases Assoc.mem_insert member with rfl | before
      · intro steps later
        exact all steps (List.mem_cons_of_mem _ later)
      · exact sound.scripts entry before
    · exact all steps (by simp)
  · exact ⟨.refl sound, by simp⟩

theorem grows_calling (sound : b.Sound past) (made : s ∈ b.history.filterMap making)
    (event : Event) :
    Grows past b ((b.record (.called s event)).note (.called s event)) [.called s event] := by
  have history : (b.history ++ [BusNotice.called s event]).filterMap calling =
      b.history.filterMap calling ++ [(s, event)] := by
    rw [List.filterMap_append]
    rfl
  have records : (b.records ++ [BusRecord.called s event]).filterMap BusRecord.calling =
      b.records.filterMap BusRecord.calling ++ [(s, event)] := by
    rw [List.filterMap_append]
    rfl
  have made' : (b.history ++ [BusNotice.called s event]).filterMap making =
      b.history.filterMap making := filterMap_concat_of_none rfl
  constructor
  · rfl
  · exact (List.append_nil _).symm
  · simp [record, note]
  constructor
  · exact sound.begun.trans (List.prefix_append _ _)
  · exact made' ▸ sound.made
  · show ((b.history ++ [BusNotice.called s event]).filterMap publication).map Event.number = _
    rw [filterMap_concat_of_none rfl]
    exact sound.published
  · show ∀ c ∈ (b.history ++ [BusNotice.called s event]).filterMap BusNotice.calling,
      c.1 ∈ (b.history ++ [BusNotice.called s event]).filterMap making
    rw [history, made']
    intro c member
    rcases List.mem_append.mp member with before | last
    · exact sound.called c before
    · rw [List.mem_singleton.mp last]
      exact made
  · show (b.records ++ [BusRecord.called s event]).filterMap BusRecord.calling =
      (b.history ++ [BusNotice.called s event]).filterMap calling
    rw [history, records, sound.recorded]
  · exact sound.ordered
  · intro t
    show t ∈ b.subscriptions ↔ Kept (b.history ++ [.called s event]) t ∧ _
    rw [kept_concat, sound.members]
    simp [Removes]
  · exact made' ▸ sound.strong
  · exact sound.scripts

theorem grows_call (sound : b.Sound past) (made : s ∈ b.history.filterMap making)
    (event : Event) :
    ∃ inner, Grows past b (b.call s event) (.called s event :: inner) ∧
      (∀ n ∈ inner, n.During event) ∧
      (b.call s event).stepsLeft + (inner.filterMap publication).length ≤ b.stepsLeft := by
  obtain ⟨first, noted⟩ : ∃ first, first = (b.record (.called s event)).note (.called s event) :=
    ⟨_, rfl⟩
  have called := grows_calling sound made event
  rw [← noted] at called
  have same : first.stepsLeft = b.stepsLeft := by
    rw [noted]
    rfl
  have result : b.call s event = (performSteps s.handler event (first.nextScript s.handler).1
      (first.nextScript s.handler).2).2 := by
    rw [noted]
    rfl
  obtain ⟨taken, strong⟩ := grows_nextScript called.sound s.handler
  have left := stepsLeft_nextScript first s.handler
  generalize first.nextScript s.handler = script at *
  obtain ⟨steps, next⟩ := script
  obtain ⟨inner, grows, during, short⟩ :=
    grows_performSteps taken.sound s.handler event steps strong
  have still := stepsLeft_of_scripts (keeps_scripts_performSteps s.handler event steps next rfl)
  have most := List.length_filterMap_le publication inner
  dsimp only at left
  refine ⟨inner, ?_, during, ?_⟩
  · rw [result]
    exact (called.trans taken).trans grows
  · rw [result, still]
    omega

theorem visit_eq (b : Bus) (handler : Option String) :
    ∃ dispatches, b.visit handler = { b with dispatches } := by
  rw [visit]
  split
  · exact ⟨_, rfl⟩
  · exact ⟨_, rfl⟩

theorem Grows.made (grows : Grows past b b' notices) (made : s ∈ b.history.filterMap making) :
    s ∈ b'.history.filterMap making := by
  rw [grows.history, List.filterMap_append]
  exact List.mem_append_left _ made

theorem mem_stale {stale : List Nat} {calls : List (Subscription × Event)}
    (earlier : ∀ number, number ∈ stale ↔
      ∃ t, t.number = number ∧ t.oneShot = true ∧ (t, event) ∈ calls) (number : Nat) :
    number ∈ (if s.oneShot then s.number :: stale else stale) ↔
      ∃ t, t.number = number ∧ t.oneShot = true ∧ (t, event) ∈ (s, event) :: calls := by
  by_cases oneShot : s.oneShot = true
  · rw [if_pos oneShot, List.mem_cons, earlier]
    constructor
    · rintro (rfl | ⟨t, same, once, member⟩)
      · exact ⟨s, rfl, oneShot, List.mem_cons_self⟩
      · exact ⟨t, same, once, List.mem_cons_of_mem _ member⟩
    · rintro ⟨t, same, once, member⟩
      rcases List.mem_cons.mp member with first | later
      · cases first
        exact .inl same.symm
      · exact .inr ⟨t, same, once, later⟩
  · rw [if_neg oneShot, earlier]
    constructor
    · rintro ⟨t, same, once, member⟩
      exact ⟨t, same, once, List.mem_cons_of_mem _ member⟩
    · rintro ⟨t, same, once, member⟩
      rcases List.mem_cons.mp member with first | later
      · cases first
        exact absurd once oneShot
      · exact ⟨t, same, once, later⟩

/-- The subscriptions that are removed behind a dispatch are those that were called for the one
time. -/
theorem grows_deliver (sound : b.Sound past) (event : Event) {listeners : List Subscription}
    (made : ∀ s ∈ listeners, s ∈ b.history.filterMap making) (fresh : b.consumed = false) :
    ∃ calls, Grows past b (b.deliver event listeners).2 calls ∧ Delivery event listeners calls ∧
      (∀ number, number ∈ (b.deliver event listeners).1 ↔
        ∃ s, s.number = number ∧ s.oneShot = true ∧ (s, event) ∈ calls.filterMap calling) ∧
      (b.deliver event listeners).2.stepsLeft + (calls.filterMap publication).length ≤
        b.stepsLeft := by
  induction listeners generalizing b with
  | nil => exact ⟨[], .refl sound, .done, by simp [deliver], Nat.le_refl _⟩
  | cons s rest ih =>
    have strong : s.weak = false := sound.strong s (made s (by simp))
    obtain ⟨dispatches, visited⟩ := visit_eq b (some s.handler)
    have sound' : ({ b with dispatches } : Bus).Sound past := sound.others _ _ _ _
    obtain ⟨inner, grows, during, left⟩ := grows_call sound' (made s (by simp)) event
    have called : (.called s event :: inner).filterMap calling = [(s, event)] := by
      rw [List.filterMap_cons_some (f := calling) rfl, (Delivery.quiet during).2]
    have consumption : (({ b with dispatches } : Bus).call s event).consumed = true ↔
        .consumed event ∈ inner := by
      rw [grows.consumed]
      constructor
      · rintro (before | ⟨e, member⟩)
        · cases fresh.symm.trans before
        · have within : .consumed e ∈ inner := by simpa using member
          have same : e = event := during _ within
          exact same ▸ within
      · intro member
        exact .inr ⟨event, List.mem_cons_of_mem _ member⟩
    rw [deliver, strong, Bool.false_and, if_neg Bool.false_ne_true, visited]
    dsimp only
    have same : ({ b with dispatches } : Bus).stepsLeft = b.stepsLeft := rfl
    rw [same] at left
    have grows : Grows past b (({ b with dispatches } : Bus).call s event)
        (.called s event :: inner) := ⟨grows.history, grows.pending, grows.consumed, grows.sound⟩
    generalize ({ b with dispatches } : Bus).call s event = next at *
    by_cases stopped : next.consumed = true
    · refine ⟨.called s event :: inner, ?_, .stopped during (consumption.mp stopped), ?_, ?_⟩
      · rw [if_pos stopped]
        exact grows
      · rw [called, if_pos stopped]
        exact mem_stale (by simp)
      · rw [if_pos stopped]
        exact left
    · obtain ⟨calls, later, delivery, stale, left'⟩ := ih grows.sound
        (fun t member => grows.made (made t (by simp [member]))) (by simpa using stopped)
      have first : (.called s event :: (inner ++ calls)).filterMap calling =
          (s, event) :: calls.filterMap calling := by
        rw [← List.cons_append, List.filterMap_append, called, List.singleton_append]
      refine ⟨.called s event :: (inner ++ calls), ?_,
        .passed during (fun member => stopped (consumption.mpr member)) delivery, ?_, ?_⟩
      · rw [if_neg stopped]
        exact grows.trans later
      · rw [first, if_neg stopped]
        exact mem_stale stale
      · rw [if_neg stopped, List.filterMap_cons_none rfl, List.filterMap_append, List.length_append]
        omega

/-! Dispatches -/

theorem spent_append {earlier later : List BusNotice} :
    Spent (earlier ++ later) s ↔ Spent earlier s ∨ Spent later s := by
  simp only [Spent, List.filterMap_append, List.mem_append, exists_or]
  exact and_or_left

/-- The subscriptions that have been spent since are removed. -/
theorem Sound.settle (sound : b.Sound past) (grown : b.history = past ++ more)
    {subscriptions : List Subscription} (ordered : subscriptions.Pairwise Subscription.Before)
    (left : ∀ s, s ∈ subscriptions ↔ s ∈ b.subscriptions ∧ ¬ Spent more s) :
    ({ b with subscriptions } : Bus).Sound b.history := by
  refine ⟨List.prefix_refl _, sound.made, sound.published, sound.called, sound.recorded, ordered,
    ?_, sound.strong, sound.scripts⟩
  intro s
  rw [left, sound.members, grown, spent_append, not_or, and_assoc]

theorem Sound.due (sound : b.Sound b.history) (topic : Topic) :
    Due b.history topic (b.listeners topic) := by
  constructor
  · exact sound.ordered.filter _
  · intro s
    rw [listeners, List.mem_filter, sound.members, beq_iff_eq]
    exact and_comm

/-- An event is given to those that are subscribed, and those that are spent by it are removed. -/
theorem serve_spec (sound : b.Sound past) (begun : b.history = past ++ more)
    (silent : more.filterMap calling = []) (event : Event) :
    ∃ calls, Delivery event (b.listeners event.topic) calls ∧
      (b.serve event).history = b.history ++ calls ∧
      (b.serve event).pending = b.pending ++ calls.filterMap publication ∧
      (b.serve event).stepsLeft + (calls.filterMap publication).length ≤ b.stepsLeft ∧
      (b.serve event).Sound (b.serve event).history := by
  have unspent (s : Subscription) : ¬ Spent more s := by
    rintro ⟨_, e, member⟩
    rw [silent] at member
    cases member
  rw [serve]
  generalize there : b.listeners event.topic = listeners
  dsimp only
  split
  · rename_i none
    obtain rfl := List.isEmpty_iff.mp none
    refine ⟨[], .done, (List.append_nil _).symm, (List.append_nil _).symm, Nat.le_refl _, ?_⟩
    exact (sound.settle begun sound.ordered fun s => by simp [unspent s]).others _ _ _ _
  · have ready := (sound.others (⟨event.topic, listeners, true, none⟩ :: b.dispatches) b.owned false
      b.pending).recording (r := .dispatched event listeners) rfl
    have known (s : Subscription) (member : s ∈ listeners) :
        s.topic = event.topic ∧ s ∈ b.history.filterMap making := by
      rw [← there, Bus.listeners, List.mem_filter, beq_iff_eq] at member
      exact ⟨member.2, ((sound.members s).mp member.1).1.made⟩
    obtain ⟨calls, grows, delivery, stale, left⟩ :=
      grows_deliver ready event (fun s member => (known s member).2) rfl
    have grown : (_ : Bus).history = past ++ (more ++ calls) :=
      (grows.history.trans (congrArg (· ++ calls) begun)).trans (List.append_assoc _ _ _)
    have budget := left
    generalize Bus.deliver _ event listeners = outcome at *
    obtain ⟨numbers, next⟩ := outcome
    dsimp only at *
    have removed : ∀ s ∈ next.subscriptions,
        (s.topic = event.topic ∧ s.number ∈ numbers ↔ Spent (more ++ calls) s) := by
      intro s member
      have made := ((grows.sound.members s).mp member).1.made
      constructor
      · rintro ⟨_, number⟩
        obtain ⟨t, same, once, called⟩ := (stale s.number).mp number
        have told : (t, event) ∈ next.history.filterMap calling := by
          rw [grows.history, List.filterMap_append]
          exact List.mem_append_right _ called
        obtain rfl := grows.sound.eq_of_number (grows.sound.called _ told) made same
        exact spent_append.mpr (.inr ⟨once, event, called⟩)
      · intro spent
        rcases spent_append.mp spent with before | ⟨once, e, called⟩
        · exact absurd before (unspent s)
        · obtain ⟨reached, first, same⟩ := delivery.called
          obtain ⟨t, hit, pair⟩ := List.mem_map.mp (same ▸ called)
          cases pair
          exact ⟨(known s (first.subset hit)).1, (stale s.number).mpr ⟨s, rfl, once, called⟩⟩
    refine ⟨calls, delivery, ?_⟩
    split
    · rename_i none
      refine ⟨grows.history, grows.pending, left, ?_⟩
      apply grows.sound.settle grown grows.sound.ordered
      intro s
      constructor
      · intro member
        refine ⟨member, fun spent => ?_⟩
        have number := ((removed s member).mpr spent).2
        rw [List.isEmpty_iff.mp none] at number
        cases number
      · exact And.left
    · refine ⟨grows.history, grows.pending, left, ?_⟩
      refine (grows.sound.settle grown (grows.sound.ordered.filter _) fun s => ?_).others _ _ _ _
      rw [List.mem_filter]
      apply and_congr_right
      intro member
      rw [← removed s member]
      simp [imp_iff_not_or]

/-- A notice that is of no call leaves the spent subscriptions as they are. -/
theorem Sound.noted_at_rest (sound : b.Sound b.history) {n : BusNotice}
    (still : n.making = none ∧ n.publication = none ∧ n.calling = none)
    (stays : ∀ s ∈ b.subscriptions, ¬ n.Removes s) : (b.note n).Sound (b.note n).history := by
  have noted := sound.noted still stays
  apply noted.settle rfl noted.ordered
  intro s
  have unspent : ¬ Spent [n] s := by
    rintro ⟨_, e, member⟩
    rw [List.filterMap_cons_none still.2.2] at member
    cases member
  exact (and_iff_left unspent).symm

/-- Whether a bus is what its history says, the history is in order, and what waits is pending. -/
structure AtRest (b : Bus) : Prop where
  sound : b.Sound b.history
  orderly : Orderly b.history b.pending

/-- What a dispatch publishes is taken off the steps that are left. -/
theorem atRest_dispatch (sound : b.Sound b.history)
    (orderly : Orderly b.history (event :: b.pending)) :
    (b.dispatch event).AtRest ∧
      (b.dispatch event).stepsLeft + (b.dispatch event).pending.length ≤
        b.stepsLeft + b.pending.length := by
  have opened : (b.note (.opened event)).Sound b.history :=
    sound.noted ⟨rfl, rfl, rfl⟩ fun s _ => by simp [Removes]
  obtain ⟨calls, delivery, history, pending, left, given⟩ := serve_spec opened rfl (by rfl) event
  have closed : (b.dispatch event).Sound (b.dispatch event).history :=
    given.noted_at_rest ⟨rfl, rfl, rfl⟩ fun s _ => by simp [Removes]
  have whole : (b.dispatch event).history = b.history ++ served event calls := by
    show ((b.note (.opened event)).serve event).history ++ [.closed event] = _
    rw [history, note, served]
    simp
  have waiting : (b.dispatch event).pending = b.pending ++ calls.filterMap publication := pending
  constructor
  · refine ⟨closed, ?_⟩
    rw [whole, waiting]
    exact .dispatched orderly (sound.due event.topic) delivery
  · have left : (b.dispatch event).stepsLeft + (calls.filterMap publication).length ≤ b.stepsLeft :=
      left
    rw [waiting, List.length_append]
    omega

/-- Events are dispatched until none is left, if there are no more of them than are allowed. -/
theorem atRest_drain (fuel : Nat) (atRest : b.AtRest) :
    (drain fuel b).AtRest ∧
      (b.stepsLeft + b.pending.length ≤ fuel → (drain fuel b).pending = []) := by
  induction fuel generalizing b with
  | zero =>
    refine ⟨atRest, fun enough => ?_⟩
    have none : b.pending.length = 0 := by omega
    exact List.eq_nil_of_length_eq_zero none
  | succ fuel ih =>
    rw [drain]
    cases next : b.pending with
    | nil => exact ⟨atRest, fun _ => next⟩
    | cons event waiting =>
      obtain ⟨after, less⟩ := atRest_dispatch (b := { b with pending := waiting })
        (atRest.sound.others _ _ _ _) (next ▸ atRest.orderly)
      obtain ⟨drained, nothing⟩ := ih after
      refine ⟨drained, fun enough => nothing ?_⟩
      rw [List.length_cons] at enough
      have less : _ ≤ b.stepsLeft + waiting.length := less
      omega

/-- What is asked for at rest stands at the end of a history in order. -/
theorem AtRest.asked (atRest : b.AtRest) {n : BusNotice} (grows : Grows b.history b b' [n])
    (request : n.Request) : b'.AtRest := by
  have silent : [n].filterMap calling = [] := by
    cases n <;> first | rfl | cases request
  have unspent (s : Subscription) : ¬ Spent [n] s := by
    rintro ⟨_, e, member⟩
    rw [silent] at member
    cases member
  constructor
  · exact grows.sound.settle grows.history grows.sound.ordered fun s =>
      (and_iff_left (unspent s)).symm
  · have told : [n].filterMap publication = n.publication.toList := by
      cases n <;> rfl
    rw [grows.history, grows.pending, told]
    exact atRest.orderly.asked request

theorem atRest_publish (atRest : b.AtRest) (topic : Topic) (data : Bindings) :
    (b.publish topic data).2.AtRest ∧ (b.publish topic data).2.pending = [] := by
  have asked := atRest.asked (grows_enqueue atRest.sound topic data) trivial
  obtain ⟨once, _⟩ := atRest_drain 1 asked
  obtain ⟨drained, nothing⟩ := atRest_drain _ once
  exact ⟨⟨drained.sound.others _ _ _ _, drained.orderly⟩, nothing (Nat.le_refl _)⟩

/-- Does one thing after the other, whether it succeeds or fails. -/
def after (b : Bus) (actions : List BusAction) : Bus :=
  actions.foldl (fun b action => (act action b).2) b

/-- A bus that nothing waits on stays so, whatever it is asked for. -/
theorem atRest_act (atRest : b.AtRest) (idle : b.pending = []) (action : BusAction)
    (strong : action.isWeak = false) :
    (act action b).2.AtRest ∧ (act action b).2.pending = [] := by
  by_cases publishing : ∃ topic data, action = .publish topic data
  · obtain ⟨topic, data, rfl⟩ := publishing
    exact atRest_publish atRest topic data
  · have performed : (act action b).2 = (perform action b).2 := by
      have done (a : BusAction) :
          ((do perform a; return none : Action (Option Bool)) b).2 = (perform a b).2 := by
        rw [Run.bind_apply]
        cases perform a b with
        | mk result next => cases result <;> rfl
      cases action with
      | publish topic data => exact absurd ⟨topic, data, rfl⟩ publishing
      | _ => exact done _
    obtain ⟨notices, grows, rfl | ⟨n, rfl, request, quiet⟩⟩ :=
      grows_perform atRest.sound action strong
    · rw [performed]
      have history := grows.history.trans (List.append_nil _)
      have pending := grows.pending.trans (List.append_nil _)
      exact ⟨⟨history ▸ grows.sound, history ▸ pending ▸ atRest.orderly⟩, pending.trans idle⟩
    · rw [performed]
      have quiet := quiet.resolve_right publishing
      refine ⟨atRest.asked grows request, ?_⟩
      rw [grows.pending, idle, List.filterMap_cons_none quiet]
      rfl

theorem atRest_after (atRest : b.AtRest) (idle : b.pending = []) (actions : List BusAction)
    (strong : ∀ action ∈ actions, action.isWeak = false) :
    (b.after actions).AtRest ∧ (b.after actions).pending = [] := by
  induction actions generalizing b with
  | nil => exact ⟨atRest, idle⟩
  | cons action rest ih =>
    obtain ⟨next, nothing⟩ := atRest_act atRest idle action (strong action (by simp))
    exact ih next nothing fun a member => strong a (by simp [member])

theorem atRest_ofHandlers {scripts : List (String × List (List HandlerStep))}
    (strong : Strong scripts) : (ofHandlers scripts).AtRest := by
  refine ⟨⟨List.prefix_refl _, rfl, rfl, by simp [ofHandlers], rfl, .nil, ?_, by simp [ofHandlers],
    strong⟩, .begun⟩
  intro s
  constructor
  · intro member
    cases member
  · rintro ⟨⟨earlier, later, same, _⟩, _⟩
    exact absurd same (by simp [ofHandlers])

/-- Whatever a bus is asked for, by its users and by handlers that run, and whether they fail or
not, its history is in order, so that every event is dispatched once, in the order in which they
were published, and to those that stand when its dispatch begins; no subscription that is for one
call is called twice; and those are subscribed that stand, so that none goes for another reason. -/
theorem delivers_in_order {scripts : List (String × List (List HandlerStep))}
    {actions : List BusAction} (strong : Strong scripts)
    (asked : ∀ action ∈ actions, action.isWeak = false) :
    let b := (ofHandlers scripts).after actions
    Orderly b.history [] ∧
    b.history.filterMap opening = b.history.filterMap publication ∧
    (b.history.filterMap publication).map Event.number = List.range b.published ∧
    (b.history.filterMap making).map Subscription.number = List.range b.subscribed ∧
    (∀ s : Subscription, s.oneShot = true →
      ((b.history.filterMap calling).map Prod.fst).count s ≤ 1) ∧
    (∀ s, s ∈ b.subscriptions ↔ Standing b.history s) ∧
    b.records.filterMap BusRecord.calling = b.history.filterMap calling := by
  obtain ⟨⟨sound, orderly⟩, idle⟩ := atRest_after (atRest_ofHandlers strong) rfl actions asked
  rw [idle] at orderly
  have told := orderly.publications
  rw [List.append_nil] at told
  exact ⟨orderly, told.symm, sound.published, sound.made, fun s => orderly.called_once,
    sound.members, sound.recorded⟩

/-- Of two handlers the second is called first, publishes an event and consumes the one that it is
called with. -/
theorem delivers_in_order_to_first_of_two :
    let scripts : List (String × List (List HandlerStep)) :=
      [("a", [[.act (.publish .nodeEntered []), .consume]]), ("b", [])]
    let actions : List BusAction := [.subscribe "b" .dialogueStarted 1 false false,
      .subscribe "a" .dialogueStarted 2 true false, .publish .dialogueStarted []]
    let b := (ofHandlers scripts).after actions
    Strong scripts ∧ (∀ action ∈ actions, action.isWeak = false) ∧ Orderly b.history [] ∧
      (b.history.filterMap publication).map Event.topic = [.dialogueStarted, .nodeEntered] ∧
      b.history.filterMap opening = b.history.filterMap publication ∧
      (b.history.filterMap calling).map (fun c => c.1.handler) = ["a"] ∧
      Standing b.history ⟨0, .dialogueStarted, "b", 1, false, false⟩ ∧
      ¬ Standing b.history ⟨1, .dialogueStarted, "a", 2, true, false⟩ := by
  intro scripts actions b
  have strong : Strong scripts := by
    unfold Strong
    decide
  have asked : ∀ action ∈ actions, action.isWeak = false := by decide
  have left : b.subscriptions = [⟨0, .dialogueStarted, "b", 1, false, false⟩] := by decide +kernel
  obtain ⟨orderly, dispatched, _, _, _, standing, _⟩ := delivers_in_order strong asked
  refine ⟨strong, asked, orderly, by decide +kernel, dispatched, by decide +kernel, ?_, ?_⟩
  · rw [← standing]
    exact left ▸ List.mem_singleton_self _
  · rw [← standing]
    exact left ▸ by decide

end Bus
end Parley
