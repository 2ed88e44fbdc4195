import Parley.Proofs.Store.Hearing

/-!
The course of events at a store with listeners that react. Everything that it comes to can happen
where listeners may act in any way, so that they hear of changes in turn.
-/
namespace Parley

/-- Whether a reaction makes a change, and whether it lets all hear of it. -/
def Reaction.Makes (change : Change) (notify : Bool) : Reaction → Prop
  | set name value origin => origin.notify = notify ∧ origin.source = change.source ∧
      change.kind = .put [.stamped name value change.time]
  | remove name origin => origin.notify = notify ∧ origin.source = change.source ∧
      change.kind = .remove [name]
  | _ => False

/-- The changes that operations are meant to make, where all hear of them. -/
def Operation.changes (s : LiveStore) : List Operation → List Change
  | [] => []
  | op :: rest =>
      let change? := match op with
        | write w time source => w.change? s ⟨true, time, source⟩
        | _ => none
      change?.toList ++ changes (op.run s) rest

namespace Mark

/-- Whether something comes of the reactions that listeners have in store, or of some operations. -/
def Stems (s : LiveStore) (ops : List Operation) : Mark → Prop
  | made _ change (some (_, maker)) _ => ∃ r, s.MayReact maker r ∧ r.Makes change true
  | hidden change => ∃ maker r, s.MayReact maker r ∧ r.Makes change false
  | refused _ => ∃ listener, s.MayReact listener .refuse
  | came listener => .attach listener ∈ ops ∨ ∃ host, s.MayReact host (.attach listener)
  | left listener => .detach listener ∈ ops ∨ ∃ host, s.MayReact host (.detach listener)
  | made _ _ none _ | told .. => True

end Mark

open LiveStore

section Joined

variable {cause : Option (Nat × String)} {m u t : Moment} {first log : List Mark}

theorem Unfolds.trans (earlier : Unfolds (.act cause) m first u)
    (later : Unfolds (.act cause) u log t) : Unfolds (.act cause) m (first ++ log) t := by
  generalize same : Task.act cause = task at earlier
  induction earlier with
  | rest => cases same; exact later
  | attach listener _ ih => cases same; exact .attach listener (ih later rfl)
  | detach listener _ ih => cases same; exact .detach listener (ih later rfl)
  | rename user _ ih => cases same; exact .rename user (ih later rfl)
  | hide change _ ih => cases same; exact .hide change (ih later rfl)
  | write change telling _ _ ih =>
    cases same
    rw [List.cons_append, List.append_assoc]
    exact .write change telling (ih later rfl)
  | _ => cases same

end Joined

/-- Whether a log accounts for what became of a store, if all reactions were in store at the
beginning. -/
structure Traced (base : LiveStore) (ops : List Operation) (s : LiveStore) (log : List Mark)
    (outcome : Except Failure Unit × LiveStore) : Prop where
  calls : outcome.2.calls = s.calls ++ log.filterMap Mark.call?
  fewer : outcome.2.Within base
  stems : ∀ mark ∈ log, mark.Stems base ops
  refused : outcome.1 = .ok () ∨ ∃ listener, base.MayReact listener .refuse

/-- Whether what became of a store can happen until a task is done. -/
def Accounted (base : LiveStore) (ops : List Operation) (task : Task) (s : LiveStore)
    (outcome : Except Failure Unit × LiveStore) : Prop :=
  ∀ next, ∃ log after, Unfolds task ⟨s.store, next⟩ log ⟨outcome.2.store, after⟩ ∧
    Traced base ops s log outcome

/-- Whether a way to tell listeners of a change is to call them in turn. -/
def Calls (base : LiveStore) (ops : List Operation) (tell : Change → Run LiveStore Unit) : Prop :=
  ∀ change (s : LiveStore), s.Within base →
    ∀ number, Accounted base ops (.tell number change s.store.listeners) s (tell change s)

section Accounts

variable {base s : LiveStore} {ops : List Operation} {tell : Change → Run LiveStore Unit}

end Accounts

namespace Operation

end Operation

end Parley
