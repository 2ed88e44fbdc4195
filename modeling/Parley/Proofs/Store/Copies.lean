import Parley.Proofs.Expr.InStep
import Parley.Proofs.Store.Mirror

/-!
The variables of a store and plain copies of them. As long as no listener interferes a script cannot
tell which of the two it works on. A copy that also keeps a record of what is written to it tells
what becomes of the store.
-/
namespace Parley

/-- Plain variables, and beside them all that has been written to them, in order. -/
def Scope.recorded : Scope (Bindings × List (String × Value)) where
  read name s := Assoc.get? name s.1
  write name value := modify fun s => (Assoc.insert name value s.1, s.2 ++ [(name, value)])

namespace Store

/-- What variables become by some assignments made at a time. -/
def assigned (held : List (String × Variable)) (made : List (String × Value)) (time : Instant) :
    List (String × Variable) :=
  written held (made.map fun (name, value) => .stamped name value time)

theorem assigned_append (held : List (String × Variable)) (first later : List (String × Value))
    (time : Instant) :
    assigned held (first ++ later) time = assigned (assigned held first time) later time := by
  simp [assigned, written, List.foldl_append]

end Store

namespace LiveStore

/-- Whether one store has become another by some assignments made at one time. -/
structure Assigned (made : List (String × Value)) (time : Option Instant) (s t : LiveStore) :
    Prop where
  held : t.store.held = Store.assigned s.store.held made (time.getD s.present)
  user : t.store.user = s.store.user
  now : t.now = s.now
  harmless : t.Harmless

variable {made more : List (String × Value)} {time : Option Instant} {s t u : LiveStore}

theorem Assigned.refl (harmless : s.Harmless) : Assigned [] time s s := ⟨rfl, rfl, rfl, harmless⟩

theorem Assigned.present (assigned : Assigned made time s t) : t.present = s.present := by
  rw [LiveStore.present, LiveStore.present, assigned.user, assigned.now]

theorem Assigned.trans (first : Assigned made time s t) (later : Assigned more time t u) :
    Assigned (made ++ more) time s u where
  held := by rw [later.held, first.held, first.present, Store.assigned_append]
  user := later.user.trans first.user
  now := later.now.trans first.now
  harmless := later.harmless

end LiveStore
end Parley
