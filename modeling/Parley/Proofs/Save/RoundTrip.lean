import Parley.Proofs.Json.Reading
import Parley.Proofs.Save.Folder
import Parley.Proofs.Save.Snapshot
import Parley.Proofs.Text.Bytes

/-!
Saving and loading. What is loaded for a user right after a save is the store that was saved, up to
the order of its variables.
-/
namespace Parley

namespace StoredRecord

theorem isWritable_ofVariable {v : Variable} (plain : v.value.Plain) (writable : v.isWritable) :
    (ofVariable v).toValue.isWritable := by
  obtain ⟨value, updated⟩ := Bool.and_eq_true_iff.mp writable
  rw [ofVariable, Value.withoutNonFinite_of_plain plain]
  simp [toValue, Variable.fields, Value.isWritable, Value.entriesAreWritable, value, updated]

theorem isWritable_ofUser (u : User) : (ofUser u).toValue.isWritable := rfl

end StoredRecord

theorem Value.areWritable_iff {items : List Value} :
    areWritable items ↔ ∀ item ∈ items, item.isWritable := by
  induction items with
  | nil => simp [areWritable]
  | cons item rest ih => simp [areWritable, ih]

namespace Snapshot

open Json

variable {s : Store} (sound : s.Sound) (now : Int)
include sound

theorem isWritable_ofStore (writable : s.held.all (·.2.isWritable)) :
    (ofStore s now).isWritable := by
  have records : Value.areWritable
      ((inOrder s).map fun v => (StoredRecord.ofVariable v).toValue) := by
    refine Value.areWritable_iff.mpr fun item member => ?_
    obtain ⟨v, inside, rfl⟩ := List.mem_map.mp member
    obtain ⟨entry, held, rfl⟩ := List.mem_map.mp ((inOrder_perm s).mem_iff.mp inside)
    exact StoredRecord.isWritable_ofVariable (sound.plain entry held)
      (List.all_eq_true.mp writable entry held)
  simp only [inOrder] at records
  simp [ofStore, contents, Value.isWritable, Value.entriesAreWritable, records,
    StoredRecord.isWritable_ofUser]

/-- The text of a snapshot is read as the snapshot. -/
theorem parse_snapshotText (writable : s.held.all (·.2.isWritable)) :
    parse (SaveFolder.snapshotText s now) = .ok (ofValue (ofStore s now)) := by
  have plain : (ofStore s now).Plain := plain_contents sound now _
  exact parse_indented (readable_ofValue plain (isWritable_ofStore sound now writable))

end Snapshot

namespace SaveFolder

open Json

variable {f f' : SaveFolder}

/-- The text of a saved store is read as the store. -/
theorem readBytes_snapshotText {s : Store} (sound : s.Sound) (now : Int)
    (writable : s.held.all (·.2.isWritable)) (user : String) (verified : Bool) :
    readBytes user (snapshotText s now).toUTF8 verified =
      .ok (.ofVariables s.user (Snapshot.inOrder s)) := by
  rw [readBytes, fromUTF8?_toUTF8, Option.map_some, Snapshot.parse_snapshotText sound now writable]
  exact Snapshot.read_ofStore sound now verified

end SaveFolder
end Parley
