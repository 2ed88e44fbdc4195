import Parley.Proofs.Store.Cascade

/-!
What a listener hears in the course of some changes. Where no one who is called ahead of him makes
changes of his own, he hears of all changes in the order in which they are made, and what he heard
last of a variable is what the store has.
-/
namespace Parley

/-! Words -/

/-- What a change says of a variable, if anything: what it is now, or that there is none. -/
def Change.word (c : Change) (name : String) : Option (Option Variable) :=
  match c.kind with
  | .put written => (written.reverse.find? (·.name == name)).map some
  | .remove names => if name ∈ names then some none else none
  | .clear => some none

/-- What the last of some changes that says something of a variable says of it. -/
def lastWord (name : String) : List Change → Option (Option Variable)
  | [] => none
  | c :: rest => (lastWord name rest).or (c.word name)

section Words

variable {name : String} {held : List (String × Variable)}

end Words

/-! Listeners who are told first -/

def heardBy (listener : String) (log : List Mark) : List Change :=
  changesFor listener (log.filterMap Mark.call?)

/-- The changes that are made, each as often as someone is registered. -/
def dueIn (often : Nat) (log : List Mark) : List Change :=
  (log.filterMap Mark.change?).flatMap (List.replicate often)

/-- Whether a listener is registered, for the last time behind no others than some. -/
def Stands (front : List String) (listener : String) (listeners : List String) : Prop :=
  ∃ ahead behind, listeners = ahead ++ listener :: behind ∧ ahead ⊆ front ∧ listener ∉ behind

/-- Whether a listener stays registered as he is. -/
def Stays (listener : String) (log : List Mark) : Prop :=
  .came listener ∉ log ∧ .left listener ∉ log

theorem Stays.mono {listener : String} {log part : List Mark} (stays : Stays listener log)
    (all : part ⊆ log) : Stays listener part :=
  stays.imp (mt (@all _)) (mt (@all _))

/-- Whether a listener stays registered as he is, and none of some others makes changes. -/
structure Undisturbed (front : List String) (listener : String) (log : List Mark) : Prop where
  stays : Stays listener log
  quiet : ∀ i change number maker audience,
    .made i change (some (number, maker)) audience ∈ log → maker ∉ front

theorem Undisturbed.mono {front : List String} {listener : String} {log part : List Mark}
    (undisturbed : Undisturbed front listener log) (all : part ⊆ log) :
    Undisturbed front listener part where
  stays := undisturbed.stays.mono all
  quiet i change number maker audience made :=
    undisturbed.quiet i change number maker audience (all made)

section Stands

variable {front listeners : List String} {listener other : String}

theorem Stands.attach (stands : Stands front listener listeners) (apart : other ≠ listener) :
    Stands front listener (listeners ++ [other]) := by
  obtain ⟨ahead, behind, rfl, within, last⟩ := stands
  exact ⟨ahead, behind ++ [other], by simp, within, by simp [last, apart.symm]⟩

theorem Stands.detach (stands : Stands front listener listeners) (apart : other ≠ listener) :
    Stands front listener (listeners.erase other) := by
  obtain ⟨ahead, behind, rfl, within, last⟩ := stands
  rw [List.erase_append]
  split
  · exact ⟨ahead.erase other, behind, rfl, fun x member => within (List.mem_of_mem_erase member),
      last⟩
  · rw [List.erase_cons_tail (by simpa using apart.symm)]
    exact ⟨ahead, behind.erase other, rfl, within,
      fun member => last (List.mem_of_mem_erase member)⟩

end Stands

/-- Whether someone hears of no more than he should, in that order, and of all of it if something is
so. -/
structure Hears (whole : Prop) (heard due : List Change) : Prop where
  sublist : heard.Sublist due
  all : whole → heard = due

theorem Hears.append {whole whole' : Prop} {heard heard' due due' : List Change}
    (hears : Hears whole heard due) (hears' : Hears whole' heard' due') :
    Hears (whole ∧ whole') (heard ++ heard') (due ++ due') :=
  ⟨hears.sublist.append hears'.sublist, fun both => by rw [hears.all both.1, hears'.all both.2]⟩

/-- Whether all hear of everything. -/
def Whole (log : List Mark) : Prop := ∀ n, .refused n ∉ log

theorem Whole.mono {log part : List Mark} (whole : Whole log) (all : part ⊆ log) : Whole part :=
  fun n refused => whole n (all refused)

/-- What those that are still to be told of a change hear of it. -/
def Task.due (listener : String) : Task → List Change
  | act _ => []
  | tell _ change left => List.replicate (left.count listener) change

section Undisturbed

variable {front : List String} {listener : String} {task : Task} {m t : Moment} {log : List Mark}

section Parts

variable {often : Nat} {first : List Mark}

end Parts

/-- Whether a listener hears of changes in the order in which they are made, of each one no more
often than he is registered; and, if no one refuses a change, just as often, so that what he heard
last of a variable is what the store has, unless it was changed without telling. -/
structure InStep (listener : String) (m : Moment) (log : List Mark) (t : Moment) : Prop where
  sublist : (heardBy listener log).Sublist (dueIn (m.store.listeners.count listener) log)
  whole : Whole log → heardBy listener log = dueIn (m.store.listeners.count listener) log
  last : Whole log → m.store.names.Nodup → ∀ name,
    (∀ change, .hidden change ∈ log → change.word name = none) →
      t.store.get? name = (lastWord name (heardBy listener log)).getD (m.store.get? name)

end Undisturbed

end Parley
