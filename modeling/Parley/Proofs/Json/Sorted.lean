import Mathlib.Data.List.Perm.Basic
import Parley.Json.Printer
import Parley.Proofs.Json.Values

/-!
Documents up to the order of the entries in their maps. Sorting forgets that order and nothing else.
-/
namespace Parley.Json

mutual

/-- Whether two documents are equal but for the order of the entries in their maps. -/
inductive Alike : Json → Json → Prop
  | same (j : Json) : Alike j j
  | list {items others : List Json} : ItemsAlike items others → Alike (.list items) (.list others)
  | map {entries first second others : List (List Rune × Json)} :
      entries.Perm first → EntriesAlike first second → second.Perm others →
        Alike (.map entries) (.map others)

inductive ItemsAlike : List Json → List Json → Prop
  | nil : ItemsAlike [] []
  | cons {a b : Json} {rest others : List Json} :
      Alike a b → ItemsAlike rest others → ItemsAlike (a :: rest) (b :: others)

/-- Whether two lists of entries agree in their keys, and in their values but for that order. -/
inductive EntriesAlike : List (List Rune × Json) → List (List Rune × Json) → Prop
  | nil : EntriesAlike [] []
  | cons {key : List Rune} {a b : Json} {rest others : List (List Rune × Json)} :
      Alike a b → EntriesAlike rest others → EntriesAlike ((key, a) :: rest) ((key, b) :: others)

end

theorem EntriesAlike.refl (entries : List (List Rune × Json)) : EntriesAlike entries entries := by
  induction entries with
  | nil => exact .nil
  | cons entry rest ih => exact .cons (.same entry.2) ih

/-- Entries that are put into maps that are alike leave them alike. -/
theorem Alike.insert {entries others more more' : List (List Rune × Json)}
    {entry : List Rune × Json} (alike : Alike (.map entries) (.map others))
    (first : more.Perm (entry :: entries)) (second : more'.Perm (entry :: others)) :
    Alike (.map more) (.map more') := by
  cases alike with
  | same => exact .map first (.refl _) second.symm
  | map before matched behind =>
    exact .map (first.trans (before.cons _)) (.cons (.same entry.2) matched)
      ((behind.cons _).trans second.symm)

/-- What is left of some values in another order comes from the values in some order. -/
theorem exists_perm_of_map {α β : Type} {f : α → β} {xs : List β} {ys : List α}
    (perm : xs.Perm (ys.map f)) : ∃ zs : List α, xs = zs.map f ∧ zs.Perm ys := by
  have pairs : List.Forall₂ (fun x y => x = f y) (ys.map f) ys :=
    List.forall₂_map_left_iff.mpr (List.forall₂_same.mpr fun _ _ => rfl)
  obtain ⟨zs, matched, order⟩ := List.perm_comp_forall₂ perm pairs
  exact ⟨zs, List.forall₂_eq_eq_eq ▸ List.forall₂_map_right_iff.mpr matched, order⟩

theorem sortedEntries_eq (entries : List (List Rune × Json)) :
    sortedEntries entries = entries.map fun e => (e.1, e.2.sorted) := by
  induction entries with
  | nil => rfl
  | cons entry rest ih => rw [sortedEntries, ih, List.map_cons]

mutual

/-- Documents that are sorted alike are alike. -/
theorem alike_of_sorted {a b : Json} (same : a.sorted = b.sorted) : Alike a b := by
  cases a with
  | list items =>
    cases b with
    | list others => exact .list (itemsAlike_of_sorted (Json.list.inj same))
    | _ => cases same
  | map entries =>
    cases b with
    | map others =>
      have merged := Json.map.inj same
      have perm : (sortedEntries entries).Perm (sortedEntries others) :=
        (List.mergeSort_perm _ keyBefore).symm.trans (merged.symm ▸ List.mergeSort_perm _ keyBefore)
      rw [sortedEntries_eq others] at perm
      obtain ⟨second, sorted, order⟩ := exists_perm_of_map perm
      exact .map (.refl _) (entriesAlike_of_sorted (sorted.trans (sortedEntries_eq second).symm))
        order
    | _ => cases same
  | _ =>
    cases b with
    | list others => cases same
    | map others => cases same
    | _ => cases same <;> exact .same _

theorem itemsAlike_of_sorted {items others : List Json}
    (same : sortedItems items = sortedItems others) : ItemsAlike items others := by
  cases items with
  | nil =>
    cases others with
    | nil => exact .nil
    | cons b rest => cases same
  | cons a rest =>
    cases others with
    | nil => cases same
    | cons b rest' =>
      obtain ⟨first, later⟩ := List.cons.inj same
      exact .cons (alike_of_sorted first) (itemsAlike_of_sorted later)

theorem entriesAlike_of_sorted {entries others : List (List Rune × Json)}
    (same : sortedEntries entries = sortedEntries others) : EntriesAlike entries others := by
  cases entries with
  | nil =>
    cases others with
    | nil => exact .nil
    | cons other rest => cases same
  | cons entry rest =>
    obtain ⟨key, a⟩ := entry
    cases others with
    | nil => cases same
    | cons other rest' =>
      obtain ⟨key', b⟩ := other
      obtain ⟨first, later⟩ := List.cons.inj same
      obtain ⟨rfl, value⟩ := Prod.mk.inj first
      exact .cons (alike_of_sorted value) (entriesAlike_of_sorted later)

end

mutual

theorem Whole.sorted {j : Json} (whole : j.Whole) : j.sorted.Whole := by
  cases j with
  | list items => exact ItemsWhole.sorted whole
  | map entries =>
    refine entriesWhole_iff.mpr fun e member => ?_
    exact entriesWhole_iff.mp (EntriesWhole.sorted whole) e (List.mem_mergeSort.mp member)
  | _ => exact whole

theorem ItemsWhole.sorted {items : List Json} (whole : ItemsWhole items) :
    ItemsWhole (sortedItems items) := by
  cases items with
  | nil => trivial
  | cons item rest => exact ⟨Whole.sorted whole.1, ItemsWhole.sorted whole.2⟩

theorem EntriesWhole.sorted {entries : List (List Rune × Json)} (whole : EntriesWhole entries) :
    EntriesWhole (sortedEntries entries) := by
  cases entries with
  | nil => trivial
  | cons entry rest =>
    exact ⟨whole.1, Whole.sorted whole.2.1, EntriesWhole.sorted whole.2.2⟩

end

end Parley.Json
