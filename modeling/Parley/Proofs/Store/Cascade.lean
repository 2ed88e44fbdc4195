import Parley.Proofs.Store.Mirror

/-!
Changes made in answer to changes. Whoever is called for a change may act before the next one is
called: he may change the store, of which all are told before he goes on, let someone come or go, or
refuse the change. What happens is written down in the order of time.
-/
namespace Parley

/-- What happens at a store. The changes that listeners are told of are numbered. Who makes a change
when he is called does so because of the change that he is called for. -/
inductive Mark where
  | made (number : Nat) (change : Change) (cause : Option (Nat × String)) (audience : List String)
  | hidden (change : Change)
  | told (number : Nat) (call : Call)
  | refused (number : Nat)
  | came (listener : String)
  | left (listener : String)

namespace Mark

def made? : Mark → Option Nat
  | made number .. => some number
  | _ => none

/-- The change that someone is told of or refuses. -/
def about? : Mark → Option Nat
  | told number _ | refused number => some number
  | _ => none

def change? : Mark → Option Change
  | made _ change .. => some change
  | _ => none

def call? : Mark → Option Call
  | told _ call => some call
  | _ => none

/-- Who is told of what, if it is the change with some number. -/
def hearing? (number : Nat) : Mark → Option (String × Change)
  | told n call => if n = number then some (call.listener, call.change) else none
  | _ => none

end Mark

/-- A store and the number of the next change that listeners are told of. -/
structure Moment where
  store : Store
  next : Nat

/-- What someone is about: he acts, maybe in a call for a change, or tells those that are left. -/
inductive Task where
  | act (cause : Option (Nat × String))
  | tell (number : Nat) (change : Change) (left : List String)

def Task.number? : Task → Option Nat
  | act _ => none
  | tell number .. => some number

/-- What can happen until a task is done, if listeners may act in any way that comes to an end. A
change is told to those who are listeners when it has been made, one after the other, up to the
first one who refuses it. -/
inductive Unfolds : Task → Moment → List Mark → Moment → Prop
  | rest {cause : Option (Nat × String)} {m : Moment} : Unfolds (.act cause) m [] m
  | attach {cause : Option (Nat × String)} {store : Store} {next : Nat} {log : List Mark}
      {t : Moment} (listener : String)
      (later : Unfolds (.act cause)
        ⟨{ store with listeners := store.listeners ++ [listener] }, next⟩ log t) :
      Unfolds (.act cause) ⟨store, next⟩ (.came listener :: log) t
  | detach {cause : Option (Nat × String)} {store : Store} {next : Nat} {log : List Mark}
      {t : Moment} (listener : String)
      (later : Unfolds (.act cause)
        ⟨{ store with listeners := store.listeners.erase listener }, next⟩ log t) :
      Unfolds (.act cause) ⟨store, next⟩ (.left listener :: log) t
  | rename {cause : Option (Nat × String)} {store : Store} {next : Nat} {log : List Mark}
      {t : Moment} (user : User)
      (later : Unfolds (.act cause) ⟨{ store with user }, next⟩ log t) :
      Unfolds (.act cause) ⟨store, next⟩ log t
  | hide {cause : Option (Nat × String)} {store : Store} {next : Nat} {log : List Mark}
      {t : Moment} (change : Change)
      (later : Unfolds (.act cause) ⟨store.make change, next⟩ log t) :
      Unfolds (.act cause) ⟨store, next⟩ (.hidden change :: log) t
  | write {cause : Option (Nat × String)} {store : Store} {next : Nat} {first log : List Mark}
      {u t : Moment} (change : Change)
      (telling : Unfolds (.tell next change store.listeners) ⟨store.make change, next + 1⟩ first u)
      (later : Unfolds (.act cause) u log t) :
      Unfolds (.act cause) ⟨store, next⟩
        (.made next change cause store.listeners :: (first ++ log)) t
  | done {number : Nat} {change : Change} {m : Moment} : Unfolds (.tell number change []) m [] m
  | refuse {number : Nat} {change : Change} {listener : String} {others : List String}
      {m t : Moment} {log : List Mark}
      (acting : Unfolds (.act (some (number, listener))) m log t) :
      Unfolds (.tell number change (listener :: others)) m
        (.told number ⟨listener, change, m.store.snapshot⟩ :: (log ++ [.refused number])) t
  | call {number : Nat} {change : Change} {listener : String} {others : List String}
      {m u t : Moment} {first log : List Mark}
      (acting : Unfolds (.act (some (number, listener))) m first u)
      (later : Unfolds (.tell number change others) u log t) :
      Unfolds (.tell number change (listener :: others)) m
        (.told number ⟨listener, change, m.store.snapshot⟩ :: (first ++ log)) t

variable {task : Task} {m t : Moment} {log : List Mark}

/-- Whether a change goes back to one that someone made when he was called for an earlier one. -/
def Answers (i j : Nat) (log : List Mark) : Prop :=
  ∃ k ≤ j, i < k ∧ ∃ change listener audience,
    .made k change (some (i, listener)) audience ∈ log

/-- Whether, whenever someone is called for a change, the later changes made by then go back to
someone who was called for it before, and no one is told of them any more. -/
def Settled (log : List Mark) : Prop :=
  ∀ before i call after, log = before ++ .told i call :: after →
    ∀ j ∈ before.filterMap Mark.made?, i < j →
      Answers i j before ∧ j ∉ after.filterMap Mark.about?

theorem Answers.mono {i j : Nat} {more : List Mark} (answers : Answers i j log)
    (all : log ⊆ more) : Answers i j more := by
  obtain ⟨k, le, less, change, listener, audience, made⟩ := answers
  exact ⟨k, le, less, change, listener, audience, all made⟩

theorem settled_nil : Settled [] := by
  intro before i call after same
  simp at same

theorem settled_cons {mark : Mark} (settled : Settled log)
    (least : ∀ j ∈ mark.made?, ∀ i ∈ log.filterMap Mark.about?, j ≤ i) :
    Settled (mark :: log) := by
  intro before i call after same j made less
  cases before with
  | nil => cases made
  | cons first before =>
    obtain ⟨rfl, rfl⟩ := List.cons.inj same
    rcases List.mem_filterMap.mp made with ⟨x, member, named⟩
    rcases List.mem_cons.mp member with rfl | inside
    · have := least j named i (by simp [Mark.about?])
      omega
    · obtain ⟨answers, ended⟩ :=
        settled before i call after rfl j (List.mem_filterMap.mpr ⟨x, inside, named⟩) less
      exact ⟨answers.mono (List.subset_cons_self mark before), ended⟩

theorem settled_append {first later : List Mark} (settled : Settled first)
    (settled' : Settled later)
    (ended : ∀ j ∈ first.filterMap Mark.made?, j ∉ later.filterMap Mark.about?)
    (answered : ∀ j ∈ first.filterMap Mark.made?, ∀ i ∈ later.filterMap Mark.about?, i < j →
      Answers i j first) :
    Settled (first ++ later) := by
  intro before i call after same j made less
  rcases List.append_eq_append_iff.mp same with ⟨front, rfl, rfl⟩ | ⟨back, rfl, rest⟩
  · rw [List.filterMap_append, List.mem_append] at made
    rcases made with made | made
    · have apart := ended j made
      have here := answered j made i (by simp [Mark.about?]) less
      exact ⟨here.mono (List.subset_append_left _ _), by simp_all⟩
    · obtain ⟨answers, apart⟩ := settled' front i call after rfl j made less
      exact ⟨answers.mono (List.subset_append_right _ _), apart⟩
  · have apart := ended j (by simp [made])
    cases back with
    | nil =>
      rw [List.nil_append] at rest
      subst rest
      rw [List.append_nil] at ended answered
      refine ⟨answered j made i (by simp [Mark.about?]) less, fun member => apart ?_⟩
      obtain ⟨mark, inside, named⟩ := List.mem_filterMap.mp member
      exact List.mem_filterMap.mpr ⟨mark, List.mem_cons_of_mem _ inside, named⟩
    | cons mark back =>
      obtain ⟨rfl, rfl⟩ := List.cons.inj rest
      obtain ⟨answers, here⟩ := settled before i call back rfl j made less
      exact ⟨answers, by simp_all⟩

/-- Whether the listeners at the time of a change are told of it, in their order, up to the first
one who refuses it. -/
def Rolled (log : List Mark) : Prop :=
  ∀ i change cause audience, .made i change cause audience ∈ log →
    let heard := log.filterMap (Mark.hearing? i)
    let called := audience.map (·, change)
    heard <+: called ∧ (.refused i ∉ log → heard = called)

theorem hearing_eq_nil {i : Nat} (other : i ∉ log.filterMap Mark.about?) :
    log.filterMap (Mark.hearing? i) = [] := by
  rw [List.filterMap_eq_nil_iff]
  intro mark member
  cases mark with
  | told number call =>
    refine if_neg fun same => other ?_
    exact List.mem_filterMap.mpr ⟨_, member, congrArg some same⟩
  | _ => rfl

theorem rolled_append {first later : List Mark} (rolled : Rolled first) (rolled' : Rolled later)
    (ended : ∀ j ∈ first.filterMap Mark.made?, j ∉ later.filterMap Mark.about?)
    (fresh : ∀ j ∈ later.filterMap Mark.made?, j ∉ first.filterMap Mark.about?) :
    Rolled (first ++ later) := by
  intro i change cause audience made
  rw [List.filterMap_append]
  rcases List.mem_append.mp made with made | made
  · have none := hearing_eq_nil (ended i (List.mem_filterMap.mpr ⟨_, made, rfl⟩))
    obtain ⟨front, whole⟩ := rolled i change cause audience made
    rw [none, List.append_nil]
    exact ⟨front, fun taken => whole fun refused => taken (List.mem_append_left _ refused)⟩
  · have none := hearing_eq_nil (fresh i (List.mem_filterMap.mpr ⟨_, made, rfl⟩))
    obtain ⟨front, whole⟩ := rolled' i change cause audience made
    rw [none, List.nil_append]
    exact ⟨front, fun taken => whole fun refused => taken (List.mem_append_right _ refused)⟩

/-- What holds of everything that happens until a task is done: changes are numbered in the order
in which they are made. -/
structure InTurn (log : List Mark) : Prop where
  ordered : (log.filterMap Mark.made?).Pairwise (· < ·)
  rolled : Rolled log
  settled : Settled log

theorem InTurn.append {first later : List Mark} (inTurn : InTurn first) (inTurn' : InTurn later)
    (before : ∀ i ∈ first.filterMap Mark.made?, ∀ j ∈ later.filterMap Mark.made?, i < j)
    (ended : ∀ j ∈ first.filterMap Mark.made?, j ∉ later.filterMap Mark.about?)
    (fresh : ∀ j ∈ later.filterMap Mark.made?, j ∉ first.filterMap Mark.about?)
    (answered : ∀ j ∈ first.filterMap Mark.made?, ∀ i ∈ later.filterMap Mark.about?, i < j →
      Answers i j first) :
    InTurn (first ++ later) := by
  refine ⟨?_, rolled_append inTurn.rolled inTurn'.rolled ended fresh,
    settled_append inTurn.settled inTurn'.settled ended answered⟩
  rw [List.filterMap_append, List.pairwise_append]
  exact ⟨inTurn.ordered, inTurn'.ordered, before⟩

theorem InTurn.cons {mark : Mark} (inTurn : InTurn log) (unmade : mark.made? = none)
    (fresh : ∀ j ∈ mark.about?, j ∉ log.filterMap Mark.made?) : InTurn (mark :: log) := by
  have none : [mark].filterMap Mark.made? = [] := List.filterMap_cons_none unmade
  have single : InTurn [mark] := by
    refine ⟨none ▸ .nil, fun i change cause audience made => ?_, settled_cons settled_nil ?_⟩
    · rw [← List.mem_singleton.mp made] at unmade
      cases unmade
    · simp
  refine single.append inTurn (by simp [none]) (by simp [none]) (fun j made about => ?_)
    (by simp [none])
  · obtain ⟨x, member, named⟩ := List.mem_filterMap.mp about
    rw [List.mem_singleton.mp member] at named
    exact fresh j named made

end Parley
