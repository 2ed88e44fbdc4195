import Parley.Proofs.Expr.Influence
import Parley.Store.Live

/-!
Scopes that work as a map of names to values: plain variables always, those of a store as long as no
listener interferes.
-/
namespace Parley

theorem Scope.plain_lawful : Scope.plain.Lawful fun _ => True where
  writes _ _ _ _ := rfl
  stays _ _ _ _ := trivial
  read_self name value bindings _ := Assoc.get?_insert_self name value bindings
  read_other _ value _ bindings _ other := Assoc.get?_insert_of_ne other value bindings

namespace LiveStore

/-- Whether nobody changes a store or refuses a change when the store is written to: either no
listener is told or none has anything left to do. -/
def Quiet (origin : Origin) (s : LiveStore) : Prop :=
  origin.notify = false ∨ ∀ entry ∈ s.reactions, entry.2 = []

theorem nextReaction_of_idle (listener : String) {s : LiveStore}
    (idle : ∀ entry ∈ s.reactions, entry.2 = []) : nextReaction listener s = (.ok none, s) := by
  rw [nextReaction, Run.bind_apply, Run.get_apply, Run.andThen_ok]
  cases held : Assoc.get? listener s.reactions with
  | none => rfl
  | some reactions =>
    have none_left : reactions = [] := idle _ (Assoc.mem_of_get? held)
    rw [none_left]
    rfl

/-- Listeners without reactions hear of a change and leave the store as it is. -/
theorem fanOut_of_idle (react : Reaction → Run LiveStore Unit) (change : Change)
    (listeners : List String) {s : LiveStore} (idle : ∀ entry ∈ s.reactions, entry.2 = []) :
    ∃ calls, fanOut react change listeners s = (.ok (), { s with calls }) := by
  induction listeners generalizing s with
  | nil => exact ⟨s.calls, rfl⟩
  | cons listener rest ih =>
    have later : ∃ calls, fanOut react change rest
        { s with calls := s.calls ++ [⟨listener, change, s.store.snapshot⟩] } =
          (.ok (), { s with calls }) := ih idle
    obtain ⟨calls, last⟩ := later
    refine ⟨calls, ?_⟩
    rw [fanOut, Run.bind_apply, Run.modify_apply, Run.andThen_ok, Run.bind_apply,
      nextReaction_of_idle listener (by exact idle), Run.andThen_ok]
    exact last

theorem notify_of_idle (depth : Nat) (change : Change) {s : LiveStore}
    (idle : ∀ entry ∈ s.reactions, entry.2 = []) :
    ∃ calls, notify depth change s = (.ok (), { s with calls }) := by
  cases depth with
  | zero => exact fanOut_of_idle _ change s.store.listeners idle
  | succ depth => exact fanOut_of_idle _ change s.store.listeners idle

theorem told_of_quiet {origin : Origin} {s : LiveStore} (quiet : Quiet origin s) (time : Instant)
    (kind : ChangeKind) :
    ∃ calls, told announce origin time kind s = (.ok (), { s with calls }) := by
  unfold told
  rcases quiet with silent | idle
  · rw [silent]
    exact ⟨s.calls, rfl⟩
  · cases origin.notify
    · exact ⟨s.calls, rfl⟩
    · exact notify_of_idle _ _ idle

/-- A write to a quiet store takes place and touches nothing else in it. -/
theorem write_of_quiet {origin : Origin} {s : LiveStore} (quiet : Quiet origin s) (name : String)
    (value : Value) :
    ∃ calls, (scope origin).write name value s =
      (.ok (), { s with store := s.store.put (.stamped name value (s.timeOf origin)), calls }) := by
  let v := Variable.stamped name value (s.timeOf origin)
  have quiet' : Quiet origin { s with store := s.store.put v } := quiet
  obtain ⟨calls, heard⟩ := told_of_quiet quiet' (s.timeOf origin) (.put [v])
  refine ⟨calls, ?_⟩
  have written : (scope origin).write name value s =
      Run.andThen (fun _ => pure ()) (Run.andThen (fun _ => pure v)
        (told announce origin (s.timeOf origin) (.put [v]) { s with store := s.store.put v })) := by
    simp only [scope, setValue, setWith, onStore, Run.bind_apply, Run.get_apply, Run.andThen_ok,
      Run.modify_apply]
    rfl
  rw [written, heard]
  rfl

theorem scope_lawful (origin : Origin) : (scope origin).Lawful (Quiet origin) where
  writes name value s quiet := by
    obtain ⟨calls, written⟩ := write_of_quiet quiet name value
    rw [written]
  stays name value s quiet := by
    obtain ⟨calls, written⟩ := write_of_quiet quiet name value
    rw [written]
    exact quiet
  read_self name value s quiet := by
    obtain ⟨calls, written⟩ := write_of_quiet quiet name value
    rw [written]
    simp [scope, Store.value?, Store.get?, Store.put, Variable.stamped, Assoc.get?_insert_self]
  read_other name value other s quiet differs := by
    obtain ⟨calls, written⟩ := write_of_quiet quiet name value
    rw [written]
    simp [scope, Store.value?, Store.get?, Store.put, Variable.stamped,
      Assoc.get?_insert_of_ne differs]

end LiveStore
end Parley
