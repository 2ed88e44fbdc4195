import Mathlib.Data.List.Perm.Basic
import Parley.Proofs.Json.Values
import Parley.Proofs.Outcome
import Parley.Save.Snapshot

/-!
Snapshots of stores. The snapshot of a store is accepted, and what is read from it is the store with
its variables in the order of their names.
-/
namespace Parley

namespace Value

mutual

theorem withoutNonFinite_of_plain {v : Value} (plain : v.Plain) : v.withoutNonFinite = v := by
  cases v with
  | float x => exact if_pos plain
  | list items => exact congrArg Value.list (itemsWithoutNonFinite_of_plain plain)
  | map entries => exact congrArg Value.map (entriesWithoutNonFinite_of_plain plain.2)
  | _ => rfl

theorem itemsWithoutNonFinite_of_plain {items : List Value} (plain : ItemsPlain items) :
    itemsWithoutNonFinite items = items := by
  cases items with
  | nil => rfl
  | cons item rest =>
    rw [itemsWithoutNonFinite, withoutNonFinite_of_plain plain.1,
      itemsWithoutNonFinite_of_plain plain.2]

theorem entriesWithoutNonFinite_of_plain {entries : List (String × Value)}
    (plain : EntriesPlain entries) : entriesWithoutNonFinite entries = entries := by
  cases entries with
  | nil => rfl
  | cons entry rest =>
    rw [entriesWithoutNonFinite, withoutNonFinite_of_plain plain.1,
      entriesWithoutNonFinite_of_plain plain.2]

end

mutual

/-- Whether no key stands twice in a map, at any depth. -/
def Keyed : Value → Prop
  | .list items => ItemsKeyed items
  | .map entries => (Assoc.keys entries).Nodup ∧ EntriesKeyed entries
  | _ => True

def ItemsKeyed : List Value → Prop
  | [] => True
  | item :: rest => item.Keyed ∧ ItemsKeyed rest

def EntriesKeyed : List (String × Value) → Prop
  | [] => True
  | (_, item) :: rest => item.Keyed ∧ EntriesKeyed rest

end

theorem keys_entriesWithoutNonFinite (entries : List (String × Value)) :
    Assoc.keys (entriesWithoutNonFinite entries) = Assoc.keys entries := by
  induction entries with
  | nil => rfl
  | cons entry rest ih => exact congrArg (entry.1 :: ·) ih

mutual

theorem plain_withoutNonFinite {v : Value} (keyed : v.Keyed) : v.withoutNonFinite.Plain := by
  cases v with
  | float x =>
    rw [withoutNonFinite]
    split
    · assumption
    · trivial
  | list items => exact itemsPlain_withoutNonFinite keyed
  | map entries =>
    refine ⟨?_, entriesPlain_withoutNonFinite keyed.2⟩
    rw [keys_entriesWithoutNonFinite]
    exact keyed.1
  | _ => trivial

theorem itemsPlain_withoutNonFinite {items : List Value} (keyed : ItemsKeyed items) :
    ItemsPlain (itemsWithoutNonFinite items) := by
  cases items with
  | nil => trivial
  | cons item rest =>
    exact ⟨plain_withoutNonFinite keyed.1, itemsPlain_withoutNonFinite keyed.2⟩

theorem entriesPlain_withoutNonFinite {entries : List (String × Value)}
    (keyed : EntriesKeyed entries) : EntriesPlain (entriesWithoutNonFinite entries) := by
  cases entries with
  | nil => trivial
  | cons entry rest =>
    exact ⟨plain_withoutNonFinite keyed.1, entriesPlain_withoutNonFinite keyed.2⟩

end

mutual

theorem isWritable_withoutNonFinite {v : Value} (writable : v.isWritable) :
    v.withoutNonFinite.isWritable := by
  cases v with
  | float x =>
    rw [withoutNonFinite]
    split <;> rfl
  | list items => exact areWritable_withoutNonFinite writable
  | map entries => exact entriesAreWritable_withoutNonFinite writable
  | _ => exact writable

theorem areWritable_withoutNonFinite {items : List Value} (writable : areWritable items) :
    areWritable (itemsWithoutNonFinite items) := by
  cases items with
  | nil => rfl
  | cons item rest =>
    obtain ⟨first, others⟩ := Bool.and_eq_true_iff.mp writable
    exact Bool.and_eq_true_iff.mpr
      ⟨isWritable_withoutNonFinite first, areWritable_withoutNonFinite others⟩

theorem entriesAreWritable_withoutNonFinite {entries : List (String × Value)}
    (writable : entriesAreWritable entries) :
    entriesAreWritable (entriesWithoutNonFinite entries) := by
  cases entries with
  | nil => rfl
  | cons entry rest =>
    obtain ⟨first, others⟩ := Bool.and_eq_true_iff.mp writable
    exact Bool.and_eq_true_iff.mpr
      ⟨isWritable_withoutNonFinite first, entriesAreWritable_withoutNonFinite others⟩

end

end Value

/-! Records -/

/-- The zone of a user whose zone is not given is known. -/
theorem isZoneName_utc : isZoneName "UTC" := by decide +kernel

theorem User.ofFields?_fields {u : User} (known : isZoneName u.zone) :
    User.ofFields? u.fields = some u := by
  have checked : User.checked? u.id u.zone = some u := by rw [User.checked?, if_pos known]
  rw [← checked]
  rfl

theorem Variable.ofFields?_fields (v : Variable) : Variable.ofFields? v.fields = some v := rfl

namespace StoredRecord

theorem ofValue?_toValue {r : StoredRecord} (typed : r.type.isEmpty = false) :
    ofValue? r.toValue = some r := by
  have read : ofValue? r.toValue = if r.type.isEmpty then none else some r := rfl
  rw [read, typed]
  rfl

theorem plain_toValue {r : StoredRecord} (single : (Assoc.keys r.data).Nodup)
    (plain : Value.EntriesPlain r.data) : r.toValue.Plain :=
  ⟨by simp [Assoc.keys], trivial, ⟨single, plain⟩, trivial⟩

theorem asUser_ofUser {u : User} (known : isZoneName u.zone) : (ofUser u).asUser = .ok u := by
  have read := User.ofFields?_fields known
  unfold asUser readAs ofUser
  rw [if_neg (by simp), if_neg (by simp), read]

theorem asVariable_ofVariable {v : Variable} (plain : v.value.Plain) :
    (ofVariable v).asVariable = .ok v := by
  have read := Variable.ofFields?_fields v
  unfold asVariable readAs ofVariable
  rw [Value.withoutNonFinite_of_plain plain, if_neg (by simp), if_neg (by simp), read]

end StoredRecord

theorem mapM_eq_pure {m : Type → Type} [Monad m] [LawfulMonad m] {α β : Type} {f : α → m β}
    {xs : List α} {g : α → β} (each : ∀ x ∈ xs, f x = pure (g x)) :
    xs.mapM f = pure (xs.map g) := by
  induction xs with
  | nil => rfl
  | cons x rest ih =>
    rw [List.mapM_cons, each x List.mem_cons_self,
      ih fun y member => each y (List.mem_cons_of_mem x member), pure_bind, pure_bind,
      List.map_cons]

/-- Whether a store can be saved: the zone of its user is known, each variable stands under its own
name and no other, and its values are plain. -/
structure Store.Sound (s : Store) : Prop where
  zone : isZoneName s.user.zone
  named : ∀ entry ∈ s.held, entry.2.name = entry.1
  distinct : s.names.Nodup
  plain : ∀ entry ∈ s.held, entry.2.value.Plain

/-- Whether each variable of a store stands under its own name and no other, and has some
property. -/
structure Store.Holds (p : Variable → Prop) (s : Store) : Prop where
  named : ∀ entry ∈ s.held, entry.2.name = entry.1
  distinct : s.names.Nodup
  each : ∀ entry ∈ s.held, p entry.2

namespace Store.Holds

variable {p : Variable → Prop} {s : Store}

theorem put (holds : s.Holds p) {v : Variable} (given : p v) : (s.put v).Holds p := by
  refine ⟨fun entry member => ?_, ?_, fun entry member => ?_⟩
  · rcases Assoc.mem_insert member with rfl | before
    · rfl
    · exact holds.named entry before
  · exact Assoc.keys_nodup_insert holds.distinct _ _
  · rcases Assoc.mem_insert member with rfl | before
    · exact given
    · exact holds.each entry before

theorem putAll (holds : s.Holds p) {vs : List Variable} (given : ∀ v ∈ vs, p v) :
    (s.putAll vs).Holds p := by
  induction vs generalizing s with
  | nil => exact holds
  | cons v rest ih =>
    exact ih (holds.put (given v List.mem_cons_self))
      fun w member => given w (List.mem_cons_of_mem v member)

theorem ofVariables (u : User) {vs : List Variable} (given : ∀ v ∈ vs, p v) :
    (Store.ofVariables u vs).Holds p := by
  have empty : Holds p ⟨u, [], []⟩ := ⟨by simp, .nil, by simp⟩
  have made (s : Store) : s.putAll vs =
      { s with held := Assoc.insertAll s.held (vs.map fun v => (v.name, v)) } := by
    induction vs generalizing s with
    | nil => rfl
    | cons v rest ih => exact ih (fun w member => given w (List.mem_cons_of_mem v member)) (s.put v)
  have whole := empty.putAll given
  rwa [made] at whole

theorem erase (holds : s.Holds p) (name : String) : (s.erase name).Holds p := by
  have kept : ∀ entry ∈ (s.erase name).held, entry ∈ s.held := by
    intro entry member
    rw [Store.erase, Assoc.erase_eq_filter holds.distinct] at member
    exact List.mem_of_mem_filter member
  refine ⟨fun entry member => holds.named entry (kept entry member), ?_,
    fun entry member => holds.each entry (kept entry member)⟩
  rw [Store.names, Store.erase, Assoc.erase_eq_filter holds.distinct]
  exact Assoc.keys_nodup_filter holds.distinct _

end Store.Holds

/-- Stores that are made of plain variables are sound. -/
theorem Store.Sound.ofVariables {u : User} {vs : List Variable} (zone : isZoneName u.zone)
    (plain : ∀ v ∈ vs, v.value.Plain) : (Store.ofVariables u vs).Sound := by
  have holds := Holds.ofVariables u plain
  exact ⟨zone, holds.named, holds.distinct, holds.each⟩

namespace Snapshot

open Json

/-- The variables of a store in the order of their names. -/
def inOrder (s : Store) : List Variable := (s.held.map (·.2)).mergeSort byName

theorem inOrder_perm (s : Store) : (inOrder s).Perm (s.held.map (·.2)) := List.mergeSort_perm _ _

variable {s : Store} (sound : s.Sound) (now : Int)
include sound

theorem plain_of_mem_inOrder {v : Variable} (member : v ∈ inOrder s) : v.value.Plain := by
  obtain ⟨entry, inside, rfl⟩ := List.mem_map.mp ((inOrder_perm s).mem_iff.mp member)
  exact sound.plain entry inside

theorem plain_contents (checksum : String) :
    (Value.map (contents s now ++ [("checksum", .text checksum)])).Plain := by
  have records : Value.ItemsPlain
      ((inOrder s).map fun v => (StoredRecord.ofVariable v).toValue) := by
    refine Value.itemsPlain_iff.mpr fun item member => ?_
    obtain ⟨v, inside, rfl⟩ := List.mem_map.mp member
    have plain := plain_of_mem_inOrder sound inside
    rw [StoredRecord.ofVariable, Value.withoutNonFinite_of_plain plain]
    exact StoredRecord.plain_toValue (by simp [Variable.fields, Assoc.keys])
      ⟨trivial, plain, trivial, trivial, trivial⟩
  have user : (StoredRecord.ofUser s.user).toValue.Plain :=
    StoredRecord.plain_toValue (by simp [StoredRecord.ofUser, User.fields, Assoc.keys])
      ⟨trivial, trivial, trivial⟩
  exact ⟨by simp [contents, Assoc.keys], trivial, trivial, user, records, trivial, trivial⟩

/-- The snapshot of a store has the form of one, with the records of the store in order. -/
theorem ofJson?_ofStore :
    let checksum := checksumOf (ofEntries (contents s now))
    ofJson? (ofValue (ofStore s now)) = some
      ⟨ofEntries (contents s now ++ [("checksum", .text checksum)]),
        StoredRecord.ofUser s.user, (inOrder s).map StoredRecord.ofVariable, some checksum⟩ := by
  intro checksum
  have fields := toEntries_ofEntries (plain_contents sound now checksum).2
  have records : StoredRecord.ofList?
      (.list ((inOrder s).map fun v => (StoredRecord.ofVariable v).toValue)) =
      some ((inOrder s).map StoredRecord.ofVariable) := by
    rw [StoredRecord.ofList?, List.mapM_map]
    exact mapM_eq_pure fun v _ => StoredRecord.ofValue?_toValue rfl
  have user := @StoredRecord.ofValue?_toValue (StoredRecord.ofUser s.user) rfl
  have read_user : Fields.read? (contents s now ++ [("checksum", .text checksum)]) "user"
      StoredRecord.ofValue? = some (StoredRecord.ofUser s.user) := user
  have read_records : Fields.read? (contents s now ++ [("checksum", .text checksum)]) "variables"
      StoredRecord.ofList? = some ((inOrder s).map StoredRecord.ofVariable) := records
  have formed : ofJson? (ofValue (ofStore s now)) = (do
      let fields := toEntries (ofEntries (contents s now ++ [("checksum", .text checksum)]))
      if !Fields.onlyNamed ["version", "saved_at", "user", "variables", "checksum"] fields then none
      let _ ← Fields.read? fields "version" Fields.text?
      let _ ← Fields.readD fields "saved_at" "" Fields.text?
      let user ← Fields.read? fields "user" StoredRecord.ofValue?
      let records ← Fields.read? fields "variables" StoredRecord.ofList?
      let found ← Fields.readD fields "checksum" none fun v => (Fields.text? v).map some
      return ⟨ofEntries (contents s now ++ [("checksum", .text checksum)]), user, records,
        found⟩) := rfl
  rw [formed]
  simp only [fields, read_user, read_records]
  rfl

theorem store_of_records (entries : List (List Rune × Json)) (checksum : Option String) :
    store ⟨entries, StoredRecord.ofUser s.user, (inOrder s).map StoredRecord.ofVariable, checksum⟩ =
      .ok (.ofVariables s.user (inOrder s)) := by
  have records : ((inOrder s).map StoredRecord.ofVariable).mapM StoredRecord.asVariable =
      (.ok (inOrder s) : Except SaveError (List Variable)) := by
    have each : ∀ v ∈ inOrder s,
        (StoredRecord.asVariable ∘ StoredRecord.ofVariable) v = pure (id v) := fun v member =>
      StoredRecord.asVariable_ofVariable (plain_of_mem_inOrder sound member)
    rw [List.mapM_map, mapM_eq_pure each, List.map_id]
    rfl
  rw [store, StoredRecord.asUser_ofUser sound.zone, ok_bind, records]
  rfl

/-- The snapshot of a store is accepted, and what is read from it is the store. -/
theorem read_ofStore (verified : Bool) :
    read (ofValue (ofStore s now)) verified = .ok (.ofVariables s.user (inOrder s)) := by
  have right (user : StoredRecord) (records : List StoredRecord) :
      let checksum := checksumOf (ofEntries (contents s now))
      verify ⟨ofEntries (contents s now ++ [("checksum", .text checksum)]), user, records,
        some checksum⟩ = .ok () := if_pos rfl
  rw [read, ofJson?_ofStore sound]
  cases verified with
  | false => exact store_of_records sound _ _
  | true =>
    simp only [if_true, right, ok_bind]
    exact store_of_records sound _ _

/-- A store that is read has the variables of the store that was written, each under its name. -/
theorem held_perm : (Store.ofVariables s.user (inOrder s)).held.Perm s.held := by
  have paired : (s.held.map (·.2)).map (fun v => (v.name, v)) = s.held := by
    rw [List.map_map]
    refine (List.map_congr_left fun entry member => ?_).trans (List.map_id _)
    exact Prod.ext (sound.named entry member) rfl
  have perm := (inOrder_perm s).map fun v => (v.name, v)
  rw [paired] at perm
  have single : (Assoc.keys ((inOrder s).map fun v => (v.name, v))).Nodup :=
    (perm.map Prod.fst).nodup_iff.mpr sound.distinct
  rwa [Store.ofVariables, Assoc.ofList_of_nodup single]

end Snapshot

/-! Stores with numbers that JSON does not know -/

/-- A variable with null for each number that JSON does not know. -/
def Variable.withoutNonFinite (v : Variable) : Variable :=
  { v with value := v.value.withoutNonFinite }

namespace Store

/-- A store with null for each number that JSON does not know. -/
def withoutNonFinite (s : Store) : Store :=
  { s with held := s.held.map fun (name, v) => (name, v.withoutNonFinite) }

/-- Whether the zone of the user of a store is known, each variable stands under its own name and no
other, and no key stands twice in a map. -/
structure Proper (s : Store) : Prop extends s.Holds (·.value.Keyed) where
  zone : isZoneName s.user.zone

/-- Stores that are made of variables are proper. -/
theorem Proper.ofVariables {u : User} {vs : List Variable} (zone : isZoneName u.zone)
    (keyed : ∀ v ∈ vs, v.value.Keyed) : (Store.ofVariables u vs).Proper :=
  ⟨Holds.ofVariables u keyed, zone⟩

variable {s : Store}

theorem sound_withoutNonFinite (proper : s.Proper) : s.withoutNonFinite.Sound := by
  have each {p : String × Variable → Prop}
      (all : ∀ entry ∈ s.held, p (entry.1, entry.2.withoutNonFinite)) :
      ∀ entry ∈ s.withoutNonFinite.held, p entry := by
    rintro entry member
    obtain ⟨before, inside, rfl⟩ := List.mem_map.mp member
    exact all before inside
  refine ⟨proper.zone, each proper.named, ?_, each fun entry member => ?_⟩
  · have same : s.withoutNonFinite.names = s.names := by
      simp [names, withoutNonFinite, Assoc.keys, Function.comp_def]
    rw [same]
    exact proper.distinct
  · exact Value.plain_withoutNonFinite (proper.each entry member)

theorem withoutNonFinite_of_sound (sound : s.Sound) : s.withoutNonFinite = s := by
  have same : (s.held.map fun (name, v) => (name, v.withoutNonFinite)) = s.held := by
    refine (List.map_congr_left fun entry member => ?_).trans (List.map_id _)
    have value := Value.withoutNonFinite_of_plain (sound.plain entry member)
    show (entry.1, { entry.2 with value := entry.2.value.withoutNonFinite }) = entry
    rw [value]
  rw [withoutNonFinite, same]

end Store

theorem Snapshot.contents_withoutNonFinite {s : Store} (proper : s.Proper) (now : Int) :
    contents s.withoutNonFinite now = contents s now := by
  have sorted : inOrder s.withoutNonFinite = (inOrder s).map Variable.withoutNonFinite := by
    have commute : (inOrder s).map Variable.withoutNonFinite =
        ((s.held.map (·.2)).map Variable.withoutNonFinite).mergeSort byName :=
      List.map_mergeSort fun _ _ _ _ => rfl
    rw [commute, inOrder, List.map_map, Store.withoutNonFinite, List.map_map]
    rfl
  have records : (inOrder s.withoutNonFinite).map (fun v => (StoredRecord.ofVariable v).toValue) =
      (inOrder s).map (fun v => (StoredRecord.ofVariable v).toValue) := by
    rw [sorted, List.map_map]
    refine List.map_congr_left fun v member => ?_
    obtain ⟨entry, inside, rfl⟩ := List.mem_map.mp ((inOrder_perm s).mem_iff.mp member)
    have settled := Value.withoutNonFinite_of_plain
      (Value.plain_withoutNonFinite (proper.each entry inside))
    simp only [Function.comp_apply, StoredRecord.ofVariable, Variable.withoutNonFinite, settled]
  simp only [inOrder] at records
  simp only [contents, records]
  rfl

end Parley
