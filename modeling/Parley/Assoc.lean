/-!
Maps that keep the order in which their keys were first inserted: lists of pairs in which no key
stands twice.
-/
namespace Parley.Assoc

variable {κ α : Type} [DecidableEq κ]

def get? (key : κ) : List (κ × α) → Option α
  | [] => none
  | (k, v) :: rest => if k = key then some v else get? key rest

/-- Puts a value under a key: in the key's place if it has one, else at the end. -/
def insert (key : κ) (value : α) : List (κ × α) → List (κ × α)
  | [] => [(key, value)]
  | (k, v) :: rest =>
      if k = key then (key, value) :: rest else (k, v) :: insert key value rest

def erase (key : κ) : List (κ × α) → List (κ × α)
  | [] => []
  | (k, v) :: rest => if k = key then rest else (k, v) :: erase key rest

def contains (key : κ) (entries : List (κ × α)) : Bool :=
  (get? key entries).isSome

/-- Puts all the values of a list of pairs into a map, one after the other. -/
def insertAll (entries : List (κ × α)) (pairs : List (κ × α)) : List (κ × α) :=
  pairs.foldl (fun entries (key, value) => insert key value entries) entries

/-- A map of some pairs: of pairs with one key the last counts, at the place of the first. -/
def ofList (pairs : List (κ × α)) : List (κ × α) := insertAll [] pairs

def keys {κ α : Type} (entries : List (κ × α)) : List κ := entries.map (·.1)

theorem mem_of_get? {key : κ} {value : α} {entries : List (κ × α)}
    (found : get? key entries = some value) : (key, value) ∈ entries := by
  induction entries with
  | nil => cases found
  | cons entry rest ih =>
    unfold get? at found
    split at found
    · rename_i same
      cases found
      simp [← same]
    · exact List.mem_cons_of_mem entry (ih found)

theorem get?_insert_self (key : κ) (value : α) (entries : List (κ × α)) :
    get? key (insert key value entries) = some value := by
  induction entries with
  | nil => simp [insert, get?]
  | cons entry rest ih => by_cases h : entry.1 = key <;> simp [insert, get?, h, ih]

theorem get?_insert_of_ne {key other : κ} (h : other ≠ key) (value : α)
    (entries : List (κ × α)) :
    get? other (insert key value entries) = get? other entries := by
  induction entries with
  | nil => simp [insert, get?, h.symm]
  | cons entry rest ih =>
    by_cases hk : entry.1 = key
    · simp [insert, get?, hk, h.symm]
    · simp [insert, get?, hk, ih]

theorem get?_map {β : Type} (f : α → β) (key : κ) (entries : List (κ × α)) :
    get? key (entries.map fun entry => (entry.1, f entry.2)) = (get? key entries).map f := by
  induction entries with
  | nil => rfl
  | cons entry rest ih =>
    rw [List.map_cons, get?, get?]
    split
    · rfl
    · exact ih

/-- Every value of a map may be replaced by one that also depends on its key. -/
theorem insert_map_keyed {β : Type} (f : κ → α → β) (key : κ) (value : α)
    (entries : List (κ × α)) :
    (insert key value entries).map (fun entry => (entry.1, f entry.1 entry.2)) =
      insert key (f key value) (entries.map fun entry => (entry.1, f entry.1 entry.2)) := by
  induction entries with
  | nil => rfl
  | cons entry rest ih => by_cases h : entry.1 = key <;> simp [insert, h, ih]

theorem insert_map {β : Type} (f : α → β) (key : κ) (value : α) (entries : List (κ × α)) :
    (insert key value entries).map (fun entry => (entry.1, f entry.2)) =
      insert key (f value) (entries.map fun entry => (entry.1, f entry.2)) :=
  insert_map_keyed (fun _ => f) key value entries

theorem mem_insert {key : κ} {value : α} {entries : List (κ × α)} {entry : κ × α}
    (member : entry ∈ insert key value entries) : entry = (key, value) ∨ entry ∈ entries := by
  induction entries with
  | nil => simpa [insert] using member
  | cons first rest ih =>
    rw [insert] at member
    split at member
    · rcases List.mem_cons.mp member with same | later
      · exact .inl same
      · exact .inr (List.mem_cons_of_mem first later)
    · rcases List.mem_cons.mp member with same | later
      · exact .inr (same ▸ List.mem_cons_self)
      · exact (ih later).imp_right (List.mem_cons_of_mem first)

theorem keys_insert (key : κ) (value : α) (entries : List (κ × α)) :
    keys (insert key value entries) =
      if key ∈ keys entries then keys entries else keys entries ++ [key] := by
  induction entries with
  | nil => simp [insert, keys]
  | cons entry rest ih =>
    by_cases h : entry.1 = key
    · simp [insert, keys, h]
    · simp only [keys] at ih
      simp only [insert, keys, if_neg h, List.map_cons, ih, List.mem_cons, Ne.symm h, false_or]
      by_cases hm : key ∈ rest.map (·.1) <;> simp [hm]

theorem keys_nodup_insert {entries : List (κ × α)} (distinct : (keys entries).Nodup) (key : κ)
    (value : α) : (keys (insert key value entries)).Nodup := by
  rw [keys_insert]
  split
  · exact distinct
  · rename_i absent
    rw [List.nodup_append]
    refine ⟨distinct, by simp, ?_⟩
    intro a member b last same
    rw [List.mem_singleton.mp last] at same
    exact absent (same ▸ member)

/-- Where no key stands twice, erasing a key leaves all entries with other keys. -/
theorem erase_eq_filter {entries : List (κ × α)} (distinct : (keys entries).Nodup) (key : κ) :
    erase key entries = entries.filter fun entry => entry.1 ≠ key := by
  induction entries with
  | nil => rfl
  | cons entry rest ih =>
    obtain ⟨fresh, distinct⟩ := List.nodup_cons.mp distinct
    by_cases h : entry.1 = key
    · have others : rest.filter (fun entry => entry.1 ≠ key) = rest := by
        rw [List.filter_eq_self]
        intro other member
        have apart : other.1 ≠ key := by
          intro same
          exact fresh (List.mem_map.mpr ⟨other, member, same.trans h.symm⟩)
        simp [apart]
      rw [erase, if_pos h, List.filter_cons_of_neg (by simp [h]), others]
    · rw [erase, if_neg h, List.filter_cons_of_pos (by simp [h]), ih distinct]

/-- Where no key stands twice, nothing stands under a key that has been erased. -/
theorem get?_erase {entries : List (κ × α)} (distinct : (keys entries).Nodup) (key other : κ) :
    get? other (erase key entries) = if key = other then none else get? other entries := by
  induction entries with
  | nil => simp [erase, get?]
  | cons entry rest ih =>
    obtain ⟨k, v⟩ := entry
    obtain ⟨fresh, distinct⟩ := List.nodup_cons.mp distinct
    have later := ih distinct
    by_cases here : k = key
    · subst here
      by_cases same : k = other
      · subst same
        have absent : get? k rest = none := by
          cases found : get? k rest with
          | none => rfl
          | some value => exact absurd (List.mem_map_of_mem (mem_of_get? found)) fresh
        simp [erase, absent]
      · simp [erase, get?, same]
    · by_cases there : k = other
      · subst there
        rw [erase, if_neg here, get?, if_pos rfl, get?, if_pos rfl, if_neg (Ne.symm here)]
      · rw [erase, if_neg here, get?, if_neg there, get?, if_neg there, later]

omit [DecidableEq κ] in
theorem keys_nodup_filter {entries : List (κ × α)} (distinct : (keys entries).Nodup)
    (p : κ × α → Bool) : (keys (entries.filter p)).Nodup :=
  distinct.sublist (List.filter_sublist.map Prod.fst)

theorem erase_of_absent {key : κ} {entries : List (κ × α)} (absent : get? key entries = none) :
    erase key entries = entries := by
  induction entries with
  | nil => rfl
  | cons entry rest ih =>
    rw [get?] at absent
    split at absent
    · cases absent
    · rename_i other
      rw [erase, if_neg other, ih absent]

theorem get?_of_not_mem {key : κ} {entries : List (κ × α)} (other : key ∉ keys entries) :
    get? key entries = none := by
  induction entries with
  | nil => rfl
  | cons entry rest ih =>
    obtain ⟨k, v⟩ := entry
    obtain ⟨first, later⟩ := not_or.mp (mt List.mem_cons.mpr other)
    rw [get?, if_neg (Ne.symm first), ih later]

theorem mem_keys_iff {key : κ} {entries : List (κ × α)} :
    key ∈ keys entries ↔ ∃ value, get? key entries = some value := by
  constructor
  · intro member
    cases found : get? key entries with
    | some value => exact ⟨value, rfl⟩
    | none =>
      induction entries with
      | nil => cases member
      | cons entry rest ih =>
        rw [get?] at found
        split at found
        · cases found
        · rename_i other
          rcases List.mem_cons.mp member with here | later
          · exact absurd here.symm other
          · exact ih later found
  · rintro ⟨value, found⟩
    exact List.mem_map.mpr ⟨(key, value), mem_of_get? found, rfl⟩

theorem get?_of_mem {key : κ} {value : α} {entries : List (κ × α)}
    (single : (keys entries).Nodup) (member : (key, value) ∈ entries) :
    get? key entries = some value := by
  induction entries with
  | nil => cases member
  | cons entry rest ih =>
    obtain ⟨k, v⟩ := entry
    obtain ⟨other, later⟩ := List.nodup_cons.mp single
    rcases List.mem_cons.mp member with same | inside
    · cases same
      rw [get?, if_pos rfl]
    · have distinct : k ≠ key := by
        rintro rfl
        exact other (List.mem_map.mpr ⟨(k, value), inside, rfl⟩)
      rw [get?, if_neg distinct, ih later inside]

/-- Where no key stands twice, what is found does not depend on the order. -/
theorem get?_of_perm {entries others : List (κ × α)} (single : (keys entries).Nodup)
    (perm : entries.Perm others) (key : κ) : get? key entries = get? key others := by
  have single' : (keys others).Nodup := (perm.map Prod.fst).nodup_iff.mp single
  cases found : get? key entries with
  | some value => exact (get?_of_mem single' (perm.mem_iff.mp (mem_of_get? found))).symm
  | none =>
    cases found' : get? key others with
    | none => rfl
    | some value =>
      rw [get?_of_mem single (perm.mem_iff.mpr (mem_of_get? found'))] at found
      cases found

theorem insert_of_not_mem {key : κ} {value : α} {entries : List (κ × α)}
    (other : key ∉ keys entries) : insert key value entries = entries ++ [(key, value)] := by
  induction entries with
  | nil => rfl
  | cons entry rest ih =>
    obtain ⟨k, old⟩ := entry
    obtain ⟨first, later⟩ := not_or.mp (mt List.mem_cons.mpr other)
    rw [insert, if_neg (Ne.symm first), ih later]
    rfl

theorem insertAll_of_new {entries pairs : List (κ × α)} (single : (keys (entries ++ pairs)).Nodup) :
    insertAll entries pairs = entries ++ pairs := by
  induction pairs generalizing entries with
  | nil => exact (List.append_nil entries).symm
  | cons pair rest ih =>
    obtain ⟨key, value⟩ := pair
    have new : key ∉ keys entries := by
      rw [keys, List.map_append, List.nodup_append] at single
      exact fun member => single.2.2 key member key List.mem_cons_self rfl
    have step : insertAll entries ((key, value) :: rest) =
        insertAll (insert key value entries) rest := rfl
    rw [step, insert_of_not_mem new, ih (by rwa [List.append_assoc]), List.append_assoc]
    rfl

/-- Pairs without a key that stands twice are a map as they are. -/
theorem ofList_of_nodup {pairs : List (κ × α)} (single : (keys pairs).Nodup) :
    ofList pairs = pairs :=
  insertAll_of_new single

end Parley.Assoc
