import Mathlib.Data.List.Induction
import Parley.Proofs.Store.Harmless
import Parley.Store.View

/-!
Copies kept by listeners. Whoever copies the variables when he starts to listen, and repeats on the
copy each change that he is told of, has the variables of the store whenever no write is under way.
A listener who is registered several times is told of each change as often; to repeat a change once
more does no harm.
-/
namespace Parley

namespace Store

variable {held : List (String × Variable)}

/-- The effect of a write of several variables on a copy. -/
def written (held : List (String × Variable)) (vs : List Variable) :
    List (String × Variable) :=
  vs.foldl (fun held v => Assoc.insert v.name v held) held

theorem removed_eq_filter (distinct : (Assoc.keys held).Nodup) (names : List String) :
    names.foldl (fun vs name => Assoc.erase name vs) held =
      held.filter fun entry => entry.1 ∉ names := by
  induction names generalizing held with
  | nil => exact (List.filter_eq_self.mpr (by simp)).symm
  | cons name rest ih =>
    rw [List.foldl_cons, Assoc.erase_eq_filter distinct,
      ih (Assoc.keys_nodup_filter distinct _), List.filter_filter]
    congr 1
    funext entry
    simp [Bool.and_comm]

theorem keys_nodup_written (distinct : (Assoc.keys held).Nodup) (vs : List Variable) :
    (Assoc.keys (written held vs)).Nodup := by
  induction vs generalizing held with
  | nil => exact distinct
  | cons v rest ih => exact ih (Assoc.keys_nodup_insert distinct v.name v)

theorem keys_nodup_replay (distinct : (Assoc.keys held).Nodup) (c : Change) :
    (Assoc.keys (replay held c)).Nodup := by
  unfold replay
  split
  · exact keys_nodup_written distinct _
  · rw [removed_eq_filter distinct]
    exact Assoc.keys_nodup_filter distinct _
  · exact List.nodup_nil

end Store

/-- A write to a store or through a view of it. -/
inductive Write where
  | set (name : String) (value : Value)
  | remove (name : String)
  | addAll (values : Bindings)
  | clear
  | insert (name : String) (value : Value)
  | erase (name : String)
  | pop (name : String) (standard : Option Value)
  | popFirst
  | getOrInsert (name : String) (value : Value)
  | update (values beside : Bindings)

namespace Write

open LiveStore

def run (origin : Origin) : Write → Run LiveStore Unit
  | set name value => do let _ ← setValue name value origin
  | remove name => do let _ ← LiveStore.remove name origin
  | addAll values => do let _ ← LiveStore.addAll values origin
  | clear => LiveStore.clear origin
  | insert name value => View.insert origin name value
  | erase name => View.erase origin name
  | pop name standard => do let _ ← View.pop origin name standard
  | popFirst => do let _ ← View.popFirst origin
  | getOrInsert name value => do let _ ← View.getOrInsert origin name value
  | update values beside => View.update origin values beside

/-- The one change that a write makes to a store at some time, if it makes any. -/
def kind? (store : Store) (time : Instant) : Write → Option ChangeKind
  | set name value | insert name value => some (.put [.stamped name value time])
  | addAll values => some (.put (values.map fun (name, value) => .stamped name value time))
  | update values beside =>
      let merged := Assoc.insertAll (Assoc.ofList values) beside
      some (.put (merged.map fun (name, value) => .stamped name value time))
  | clear => some .clear
  | remove name | erase name | pop name _ =>
      if store.contains name then some (.remove [name]) else none
  | popFirst => store.names.head?.map fun name => .remove [name]
  | getOrInsert name value =>
      if store.contains name then none else some (.put [.stamped name value time])

def change? (s : LiveStore) (origin : Origin) (w : Write) : Option Change :=
  (w.kind? s.store (s.timeOf origin)).map fun kind => ⟨kind, s.timeOf origin, origin.source⟩

section Run

variable (origin : Origin) (s : LiveStore)

/-- A store when a change of some kind, if there is one, has been made and told of. -/
def after : Option ChangeKind → LiveStore
  | none => s
  | some kind => (making announce origin kind s).2

end Run

end Write

/-- What happens to a store between two moments at which no write is under way: a write of which the
listeners are told, someone comes or goes, the user is replaced, or time goes by. -/
inductive Operation where
  | write (w : Write) (time : Option Instant) (source : ChangeSource)
  | attach (listener : String)
  | detach (listener : String)
  | rename (user : User)
  | wait (now : Int)

namespace Operation

open LiveStore

/-- The store afterwards, whether the operation succeeds or fails. -/
def run (s : LiveStore) : Operation → LiveStore
  | write w time source => (w.run ⟨true, time, source⟩ s).2
  | attach listener => (LiveStore.attach listener s).2
  | detach listener => (LiveStore.detach listener s).2
  | rename user => { s with store := { s.store with user } }
  | wait now => { s with now }

/-- Whether listeners leave the variables alone and no name stands twice. -/
structure Regular (s : LiveStore) : Prop where
  harmless : s.Harmless
  distinct : s.store.names.Nodup

theorem regular_of_announced {change : Option Change} {audience : List String} {s t : LiveStore}
    (regular : Regular s) (announced : Announced change audience s t) : Regular t := by
  refine ⟨announced.harmless, ?_⟩
  rw [Store.names, announced.held]
  cases change with
  | none => exact regular.distinct
  | some c => exact Store.keys_nodup_replay regular.distinct c

end Operation
end Parley
