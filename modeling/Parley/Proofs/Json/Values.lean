import Mathlib.Data.List.Nodup
import Parley.Json.Basic

/-!
Documents and the values that they are. Texts without halves of surrogate pairs are texts of
characters, and a value is known from its document.
-/
namespace Parley

def Rune.isChar : Rune → Bool
  | char _ => true
  | half _ => false

theorem Rune.exists_chars {s : List Rune} (whole : ∀ r ∈ s, r.isChar) :
    ∃ cs : List Char, s = cs.map .char := by
  induction s with
  | nil => exact ⟨[], rfl⟩
  | cons r rest ih =>
    obtain ⟨cs, rfl⟩ := ih fun x member => whole x (List.mem_cons_of_mem r member)
    cases r with
    | char c => exact ⟨c :: cs, rfl⟩
    | half n => cases whole (.half n) List.mem_cons_self

namespace Value

mutual

/-- Whether all binary numbers in a value are finite and no key stands twice in a map. -/
def Plain : Value → Prop
  | .float x => x.isFinite
  | .list items => ItemsPlain items
  | .map entries => (Assoc.keys entries).Nodup ∧ EntriesPlain entries
  | _ => True

def ItemsPlain : List Value → Prop
  | [] => True
  | item :: rest => item.Plain ∧ ItemsPlain rest

def EntriesPlain : List (String × Value) → Prop
  | [] => True
  | (_, item) :: rest => item.Plain ∧ EntriesPlain rest

end

theorem itemsPlain_iff {items : List Value} : ItemsPlain items ↔ ∀ item ∈ items, item.Plain := by
  induction items with
  | nil => simp [ItemsPlain]
  | cons item rest ih => simp [ItemsPlain, ih]

end Value

namespace Json

mutual

/-- Whether no text and no key in a document has a half of a surrogate pair. -/
def Whole : Json → Prop
  | .text s => ∀ r ∈ s, r.isChar
  | .list items => ItemsWhole items
  | .map entries => EntriesWhole entries
  | _ => True

def ItemsWhole : List Json → Prop
  | [] => True
  | item :: rest => item.Whole ∧ ItemsWhole rest

def EntriesWhole : List (List Rune × Json) → Prop
  | [] => True
  | (key, item) :: rest => (∀ r ∈ key, r.isChar) ∧ item.Whole ∧ EntriesWhole rest

end

theorem entriesWhole_iff {entries : List (List Rune × Json)} :
    EntriesWhole entries ↔ ∀ e ∈ entries, (∀ r ∈ e.1, r.isChar) ∧ e.2.Whole := by
  induction entries with
  | nil => simp [EntriesWhole]
  | cons entry rest ih => simp [EntriesWhole, ih, and_assoc]

mutual

/-- Values have no halves of surrogate pairs. -/
theorem whole_ofValue (v : Value) : (ofValue v).Whole := by
  cases v with
  | text s =>
    intro r member
    obtain ⟨c, _, rfl⟩ := List.mem_map.mp member
    rfl
  | list items => exact whole_ofItems items
  | map entries => exact whole_ofEntries entries
  | _ => trivial

theorem whole_ofItems (items : List Value) : ItemsWhole (ofItems items) := by
  cases items with
  | nil => trivial
  | cons item rest => exact ⟨whole_ofValue item, whole_ofItems rest⟩

theorem whole_ofEntries (entries : List (String × Value)) : EntriesWhole (ofEntries entries) := by
  cases entries with
  | nil => trivial
  | cons entry rest =>
    refine ⟨?_, whole_ofValue entry.2, whole_ofEntries rest⟩
    intro r member
    obtain ⟨c, _, rfl⟩ := List.mem_map.mp member
    rfl

end

theorem shownText_runes (s : String) : shownText (runes s) = s := by
  rw [shownText, runes, List.map_map]
  exact (congrArg String.ofList (List.map_id s.toList)).trans String.ofList_toList

theorem runes_injective : Function.Injective runes :=
  fun s t same => by rw [← shownText_runes s, same, shownText_runes]

/-- Entries with different names have different keys in the document. -/
theorem keys_nodup_ofEntries {entries : List (String × Value)}
    (distinct : (Assoc.keys entries).Nodup) : (Assoc.keys (ofEntries entries)).Nodup := by
  have keys : Assoc.keys (ofEntries entries) = (Assoc.keys entries).map runes := by
    clear distinct
    induction entries with
    | nil => rfl
    | cons entry rest ih => exact congrArg (runes entry.1 :: ·) ih
  rw [keys]
  exact distinct.map runes_injective

/-- What a document has under a name. -/
def field? (name : String) : Json → Option Json
  | .map entries => Assoc.get? (runes name) entries
  | _ => none

mutual

/-- A value is known from its document. -/
theorem toValue_ofValue {v : Value} (plain : v.Plain) : (ofValue v).toValue = v := by
  cases v with
  | text s => exact congrArg Value.text (shownText_runes s)
  | list items => exact congrArg Value.list (toItems_ofItems plain)
  | map entries =>
    rw [ofValue, toValue, toEntries_ofEntries plain.2, Assoc.ofList_of_nodup plain.1]
  | _ => rfl

theorem toItems_ofItems {items : List Value} (plain : Value.ItemsPlain items) :
    toItems (ofItems items) = items := by
  cases items with
  | nil => rfl
  | cons item rest =>
    rw [ofItems, toItems, toValue_ofValue plain.1, toItems_ofItems plain.2]

theorem toEntries_ofEntries {entries : List (String × Value)}
    (plain : Value.EntriesPlain entries) : toEntries (ofEntries entries) = entries := by
  cases entries with
  | nil => rfl
  | cons entry rest =>
    rw [ofEntries, toEntries, shownText_runes, toValue_ofValue plain.1,
      toEntries_ofEntries plain.2]

end

end Json
end Parley
