import Mathlib.Data.List.Forall2
import Mathlib.Data.List.Perm.Subperm
import Parley.Expr.Eval
import Parley.Proofs.Value.Rank

/-!
Equality of values, and how order and membership go with it. On values without NaN, equality is an
equivalence that does not see the order of entries, takes equal elements for each other, and agrees
with the exact order of numbers and of texts.
-/
namespace Parley

/-- Whether an operator tells if two values are equal or which of them comes first. -/
def BinaryOp.compares : BinaryOp → Bool
  | .eq | .ne | .lt | .le | .gt | .ge => true
  | _ => false

namespace Value

/-- Whether no number in a value is NaN and no key stands twice in one of its maps. -/
inductive Definite : Value → Prop
  | null : Definite .null
  | bool (b : Bool) : Definite (.bool b)
  | int (n : Int) : Definite (.int n)
  | float {x : Binary64} (number : x.isNaN = false) : Definite (.float x)
  | text (s : String) : Definite (.text s)
  | list {items : List Value} (each : ∀ item ∈ items, Definite item) : Definite (.list items)
  | map {entries : List (String × Value)} (single : (Assoc.keys entries).Nodup)
      (each : ∀ entry ∈ entries, Definite entry.2) : Definite (.map entries)

/-- Whether two values are the same but for the order of the entries in their maps, the maps inside
them included. -/
inductive Rearranged : Value → Value → Prop
  | refl (a : Value) : Rearranged a a
  | perm {entries others : List (String × Value)} (perm : entries.Perm others) :
      Rearranged (.map entries) (.map others)
  | item (before after : List Value) {a b : Value} (inside : Rearranged a b) :
      Rearranged (.list (before ++ a :: after)) (.list (before ++ b :: after))
  | entry (before after : List (String × Value)) (key : String) {a b : Value}
      (inside : Rearranged a b) :
      Rearranged (.map (before ++ (key, a) :: after)) (.map (before ++ (key, b) :: after))
  | trans {a b c : Value} (first : Rearranged a b) (second : Rearranged b c) : Rearranged a c

/-- Whether two values are two numbers or two texts. -/
def Comparable (a b : Value) : Prop := a.kind = b.kind ∧ (a.kind = .number ∨ a.kind = .string)

/-- Equality of what two places hold, if they hold anything. -/
abbrev SameIn (x y : Option Value) : Prop := Option.Rel (fun a b => a.same b = true) x y

theorem SameIn.refl {x : Option Value} (each : ∀ a ∈ x, a.same a = true) : SameIn x x := by
  cases x with
  | none => exact .none
  | some a => exact .some (each a rfl)

theorem SameIn.symm {x y : Option Value} (sameIn : SameIn x y)
    (each : ∀ a ∈ x, ∀ b ∈ y, a.same b = true → b.same a = true) : SameIn y x := by
  cases sameIn with
  | none => exact .none
  | some same => exact .some (each _ rfl _ rfl same)

theorem SameIn.trans {x y z : Option Value} (first : SameIn x y) (second : SameIn y z)
    (each : ∀ a ∈ x, ∀ b ∈ y, ∀ c ∈ z, a.same b = true → b.same c = true → a.same c = true) :
    SameIn x z := by
  cases first with
  | none =>
    cases second
    exact .none
  | some here =>
    cases second with
    | some there => exact .some (each _ rfl _ rfl _ rfl here there)

theorem sameItems_of_forall₂ {items others : List Value}
    (same : List.Forall₂ (fun a b => a.same b = true) items others) :
    sameItems items others = true := by
  induction same with
  | nil => rfl
  | cons first _ ih => rw [sameItems, first, ih, Bool.and_self]

theorem sameItems_iff {items others : List Value} :
    sameItems items others = true ↔ ∀ i : Nat, SameIn items[i]? others[i]? := by
  induction items generalizing others with
  | nil =>
    cases others with
    | nil => simp [sameItems]
    | cons b rest =>
      simp only [sameItems, Bool.false_eq_true, false_iff]
      intro all
      cases all 0
  | cons a rest ih =>
    cases others with
    | nil =>
      simp only [sameItems, Bool.false_eq_true, false_iff]
      intro all
      cases all 0
    | cons b rest' =>
      rw [sameItems, Bool.and_eq_true, ih]
      constructor
      · rintro ⟨first, later⟩ i
        cases i with
        | zero => exact .some first
        | succ i => exact later i
      · intro all
        refine ⟨?_, fun i => all (i + 1)⟩
        cases all 0 with
        | some first => exact first

theorem same_list_iff {items others : List Value} :
    (list items).same (list others) = true ↔ ∀ i : Nat, SameIn items[i]? others[i]? := by
  rw [same, sameItems_iff]

theorem sameEntries_iff {entries others : List (String × Value)} :
    sameEntries entries others = true ↔
      ∀ entry ∈ entries, SameIn (some entry.2) (Assoc.get? entry.1 others) := by
  induction entries with
  | nil => simp [sameEntries]
  | cons entry rest ih =>
    obtain ⟨key, a⟩ := entry
    rw [sameEntries, Bool.and_eq_true, ih, List.forall_mem_cons]
    refine and_congr_left fun _ => ?_
    dsimp only
    cases Assoc.get? key others with
    | none => exact iff_of_false (by simp) nofun
    | some b =>
      change a.same b = true ↔ _
      exact (Option.rel_some_some (r := fun a b : Value => a.same b = true)).symm

/-- Maps are equal if under each key both have equal values or neither has one. -/
theorem same_map_iff {entries others : List (String × Value)}
    (single : (Assoc.keys entries).Nodup) (single' : (Assoc.keys others).Nodup) :
    (map entries).same (map others) = true ↔
      ∀ key, SameIn (Assoc.get? key entries) (Assoc.get? key others) := by
  rw [same, Bool.and_eq_true, beq_iff_eq, sameEntries_iff]
  constructor
  · rintro ⟨length, all⟩ key
    have within : Assoc.keys entries ⊆ Assoc.keys others := by
      intro key member
      obtain ⟨value, found⟩ := Assoc.mem_keys_iff.mp member
      have there := all _ (Assoc.mem_of_get? found)
      dsimp only at there
      cases found' : Assoc.get? key others with
      | none =>
        rw [found'] at there
        cases there
      | some value' => exact Assoc.mem_keys_iff.mpr ⟨value', found'⟩
    -- as many keys as the others have, none twice: no other is left over
    have perm : (Assoc.keys entries).Perm (Assoc.keys others) :=
      (List.subperm_of_subset single within).perm_of_length_le (by simp [Assoc.keys, length])
    cases found : Assoc.get? key entries with
    | some value =>
      have there := all _ (Assoc.mem_of_get? found)
      exact there
    | none =>
      have absent : key ∉ Assoc.keys others := by
        intro member
        obtain ⟨value, found'⟩ := Assoc.mem_keys_iff.mp (perm.mem_iff.mpr member)
        rw [found] at found'
        cases found'
      rw [Assoc.get?_of_not_mem absent]
      exact .none
  · intro all
    have perm : (Assoc.keys entries).Perm (Assoc.keys others) := by
      rw [List.perm_ext_iff_of_nodup single single']
      intro key
      rw [Assoc.mem_keys_iff, Assoc.mem_keys_iff]
      have both := all key
      generalize Assoc.get? key entries = x at both ⊢
      generalize Assoc.get? key others = y at both ⊢
      cases both <;> simp
    refine ⟨by simpa [Assoc.keys] using perm.length_eq, ?_⟩
    intro entry member
    have found := all entry.1
    rwa [Assoc.get?_of_mem single member] at found

theorem Definite.exists_magnitude {a : Value} (definite : a.Definite) (number : a.kind = .number) :
    ∃ p, a.magnitude? = some p := by
  cases definite with
  | int n => exact ⟨_, rfl⟩
  | @float x isNumber =>
    cases found : x.magnitude? with
    | some p => exact ⟨p, found⟩
    | none =>
      rw [Binary64.magnitude?_eq_none_iff.mp found] at isNumber
      cases isNumber
  | _ => cases number

theorem Definite.exists_rank {a : Value} (definite : a.Definite)
    (ordered : a.kind = .number ∨ a.kind = .string) : ∃ r, a.rank? = some r := by
  rcases ordered with number | text
  · obtain ⟨p, exact⟩ := definite.exists_magnitude number
    refine ⟨Sum.inlₗ p, ?_⟩
    cases a with
    | text s => cases exact
    | _ => rw [rank?, exact] <;> simp
  · cases a with
    | text s => exact ⟨_, rfl⟩
    | _ => cases text

/-- An induction in which numbers and texts are one case, by the place where they stand. -/
@[elab_as_elim]
theorem Definite.byRank {motive : ∀ a : Value, a.Definite → Prop} (null : motive .null .null)
    (bool : ∀ b, motive (.bool b) (.bool b))
    (ranked : ∀ {a : Value} {r} (definite : a.Definite), a.rank? = some r → motive a definite)
    (list : ∀ {items : List Value} (each : ∀ item ∈ items, item.Definite),
      (∀ item (member : item ∈ items), motive item (each item member)) →
        motive (.list items) (.list each))
    (map : ∀ {entries : List (String × Value)} (single : (Assoc.keys entries).Nodup)
      (each : ∀ entry ∈ entries, entry.2.Definite),
      (∀ entry (member : entry ∈ entries), motive entry.2 (each entry member)) →
        motive (.map entries) (.map single each))
    {a : Value} (definite : a.Definite) : motive a definite := by
  induction definite with
  | null => exact null
  | bool b => exact bool b
  | int n => exact ranked (.int n) rfl
  | float number =>
    obtain ⟨r, there⟩ := (Definite.float number).exists_rank (.inl rfl)
    exact ranked (.float number) there
  | text s => exact ranked (.text s) rfl
  | list each ih => exact list each ih
  | map single each ih => exact map single each ih

/-! An equivalence -/

theorem Definite.same_refl {a : Value} (definite : a.Definite) : a.same a = true := by
  induction definite using Definite.byRank with
  | null => rfl
  | bool b => simp [same]
  | ranked _ there => exact (same_iff_rank there).mpr there
  | list each ih =>
    rw [same_list_iff]
    intro i
    exact SameIn.refl fun a found => ih a (List.mem_of_getElem? found)
  | map single each ih =>
    rw [same_map_iff single single]
    intro key
    exact SameIn.refl fun a found => ih _ (Assoc.mem_of_get? found)

/-- Equal values are of one kind. -/
theorem kind_of_same {a b : Value} (same : a.same b = true) : a.kind = b.kind := by
  cases a <;> cases b <;> first | rfl | simp [Value.same] at same

theorem exists_list_of_same {items : List Value} {b : Value}
    (same : (list items).same b = true) : ∃ others, b = .list others := by
  have kind := kind_of_same same
  cases b with
  | list others => exact ⟨others, rfl⟩
  | _ => cases kind

theorem exists_map_of_same {entries : List (String × Value)} {b : Value}
    (same : (map entries).same b = true) : ∃ others, b = .map others := by
  have kind := kind_of_same same
  cases b with
  | map others => exact ⟨others, rfl⟩
  | _ => cases kind

theorem Definite.nodup {entries : List (String × Value)} (definite : (Value.map entries).Definite) :
    (Assoc.keys entries).Nodup := by
  cases definite with
  | map single each => exact single

theorem Definite.of_get? {entries : List (String × Value)}
    (definite : (Value.map entries).Definite) {key : String} {a : Value}
    (found : Assoc.get? key entries = some a) : a.Definite := by
  cases definite with
  | map single each => exact each _ (Assoc.mem_of_get? found)

theorem Definite.of_getElem? {items : List Value} (definite : (Value.list items).Definite) {i : Nat}
    {a : Value} (found : items[i]? = some a) : a.Definite := by
  cases definite with
  | list each => exact each a (List.mem_of_getElem? found)

theorem Definite.same_symm {a b : Value} (definite : a.Definite) (definite' : b.Definite)
    (same : a.same b = true) : b.same a = true := by
  induction definite using Definite.byRank generalizing b with
  | null =>
    cases b with
    | null => rfl
    | _ => simp [Value.same] at same
  | bool c =>
    cases b with
    | bool d =>
      rw [Value.same, beq_iff_eq] at same ⊢
      exact same.symm
    | _ => simp [Value.same] at same
  | ranked _ there => exact (same_iff_rank ((same_iff_rank there).mp same)).mpr there
  | list each ih =>
    obtain ⟨others, rfl⟩ := exists_list_of_same same
    rw [same_list_iff] at same ⊢
    intro i
    apply (same i).symm
    intro x found y found'
    exact ih x (List.mem_of_getElem? found) (definite'.of_getElem? found')
  | map single each ih =>
    obtain ⟨others, rfl⟩ := exists_map_of_same same
    rw [same_map_iff single definite'.nodup] at same
    rw [same_map_iff definite'.nodup single]
    intro key
    apply (same key).symm
    intro x found y found'
    exact ih _ (Assoc.mem_of_get? found) (definite'.of_get? found')

theorem Definite.same_trans {a b c : Value} (definite : a.Definite) (definite' : b.Definite)
    (definite'' : c.Definite) (first : a.same b = true) (second : b.same c = true) :
    a.same c = true := by
  induction definite using Definite.byRank generalizing b c with
  | null =>
    cases b with
    | null => exact second
    | _ => simp [same] at first
  | bool d =>
    cases b with
    | bool e =>
      rw [same, beq_iff_eq] at first
      rwa [first]
    | _ => simp [same] at first
  | ranked _ there =>
    have there' := (same_iff_rank there).mp first
    exact (same_iff_rank there).mpr ((same_iff_rank there').mp second)
  | list each ih =>
    obtain ⟨others, rfl⟩ := exists_list_of_same first
    obtain ⟨more, rfl⟩ := exists_list_of_same second
    rw [same_list_iff] at first second ⊢
    intro i
    apply (first i).trans (second i)
    intro x found y found' z found''
    exact ih x (List.mem_of_getElem? found) (definite'.of_getElem? found')
      (definite''.of_getElem? found'')
  | map single each ih =>
    obtain ⟨others, rfl⟩ := exists_map_of_same first
    obtain ⟨more, rfl⟩ := exists_map_of_same second
    rw [same_map_iff single definite'.nodup] at first
    rw [same_map_iff definite'.nodup definite''.nodup] at second
    rw [same_map_iff single definite''.nodup]
    intro key
    apply (first key).trans (second key)
    intro x found y found' z found''
    exact ih _ (Assoc.mem_of_get? found) (definite'.of_get? found') (definite''.of_get? found'')

/-- Equal values are equal to the same values. -/
theorem Definite.same_congr {a a' b b' : Value} (left : a.Definite) (left' : a'.Definite)
    (right : b.Definite) (right' : b'.Definite) (same : a.same a' = true)
    (same' : b.same b' = true) : a.same b = a'.same b' := by
  rw [Bool.eq_iff_iff]
  constructor
  · intro equal
    exact left'.same_trans left right' (left.same_symm left' same)
      (left.same_trans right right' equal same')
  · intro equal
    exact left.same_trans left' right same
      (left'.same_trans right' right equal (right.same_symm right' same'))

/-! Equal elements, and entries in another order -/

theorem same_of_items {items others : List Value}
    (each : List.Forall₂ (fun a b => a.same b = true) items others) :
    (list items).same (list others) = true := by
  rw [same, sameItems_of_forall₂ each]

/-- Equal values under the same keys make equal maps. -/
theorem same_of_entries {entries others : List (String × Value)}
    (single : (Assoc.keys entries).Nodup)
    (each : List.Forall₂ (fun e f => e.1 = f.1 ∧ e.2.same f.2 = true) entries others) :
    (map entries).same (map others) = true := by
  have keys : Assoc.keys entries = Assoc.keys others := by
    clear single
    induction each with
    | nil => rfl
    | cons first _ ih => exact congrArg₂ List.cons first.1 ih
  rw [same_map_iff single (keys ▸ single)]
  intro key
  clear single keys
  induction each with
  | nil => exact .none
  | @cons e f rest rest' first _ ih =>
    rw [Assoc.get?, Assoc.get?, first.1]
    split
    · exact .some first.2
    · exact ih

theorem Rearranged.same {a b : Value} (rearranged : Rearranged a b) (definite : a.Definite) :
    b.Definite ∧ a.same b = true := by
  induction rearranged with
  | refl a => exact ⟨definite, definite.same_refl⟩
  | perm order =>
    cases definite with
    | map single each =>
      have single' := (order.map Prod.fst).nodup_iff.mp single
      refine ⟨.map single' fun entry member => each entry (order.mem_iff.mpr member), ?_⟩
      rw [same_map_iff single single']
      intro key
      rw [← Assoc.get?_of_perm single order]
      exact SameIn.refl fun a found => (each _ (Assoc.mem_of_get? found)).same_refl
  | item before after _ ih =>
    cases definite with
    | list each =>
      obtain ⟨first, inner, last⟩ := List.forall_mem_append.mp each |>.imp_right
        List.forall_mem_cons.mp
      obtain ⟨definite, same⟩ := ih inner
      refine ⟨.list ?_, same_of_items ?_⟩
      · exact List.forall_mem_append.mpr ⟨first, List.forall_mem_cons.mpr ⟨definite, last⟩⟩
      · exact List.rel_append (List.forall₂_same.mpr fun x member => (first x member).same_refl)
          (.cons same (List.forall₂_same.mpr fun x member => (last x member).same_refl))
  | entry before after key _ ih =>
    cases definite with
    | map single each =>
      obtain ⟨first, inner, last⟩ := List.forall_mem_append.mp each |>.imp_right
        List.forall_mem_cons.mp
      obtain ⟨definite, same⟩ := ih inner
      refine ⟨.map (by simpa [Assoc.keys] using single) ?_, same_of_entries single ?_⟩
      · exact List.forall_mem_append.mpr ⟨first, List.forall_mem_cons.mpr ⟨definite, last⟩⟩
      · exact List.rel_append
          (List.forall₂_same.mpr fun x member => ⟨rfl, (first x member).same_refl⟩)
          (.cons ⟨rfl, same⟩
            (List.forall₂_same.mpr fun x member => ⟨rfl, (last x member).same_refl⟩))
  | trans _ _ ih ih' =>
    obtain ⟨between, same⟩ := ih definite
    obtain ⟨last, same'⟩ := ih' between
    exact ⟨last, definite.same_trans between last same same'⟩

theorem any_same_of_same {items others : List Value}
    (definite : (list items).Definite) (definite' : (list others).Definite)
    (same : (list items).same (list others) = true) {x y : Value} (left : x.Definite)
    (right : y.Definite) (equal : x.same y = true) (member : items.any (·.same x) = true) :
    others.any (·.same y) = true := by
  obtain ⟨a, inside, there⟩ := List.any_eq_true.mp member
  obtain ⟨i, found⟩ := List.mem_iff_getElem?.mp inside
  have both := same_list_iff.mp same i
  rw [found] at both
  generalize held : others[i]? = o at both
  cases both with
  | some partner =>
    rename_i b
    have mine := definite.of_getElem? found
    have other := definite'.of_getElem? held
    refine List.any_eq_true.mpr ⟨b, List.mem_of_getElem? held, ?_⟩
    rwa [← mine.same_congr other left right partner equal]

/-- What is in a list is in every equal list. -/
theorem holds_congr {items others : List Value} (definite : (list items).Definite)
    (definite' : (list others).Definite) (same : (list items).same (list others) = true)
    {x y : Value} (left : x.Definite) (right : y.Definite) (equal : x.same y = true) :
    (list items).holds x = (list others).holds y := by
  rw [holds, holds, Except.ok.injEq, Bool.eq_iff_iff]
  constructor
  · exact any_same_of_same definite definite' same left right equal
  · exact any_same_of_same definite' definite (definite.same_symm definite' same) right left
      (left.same_symm right equal)

/-! Order -/

theorem order?_eq_none_iff {a b : Value} : a.order? b = none ↔ ¬ Comparable a b := by
  cases a <;> cases b <;> simp [order?, Comparable, kind]

theorem Definite.order?_eq {a b : Value} (left : a.Definite) (right : b.Definite)
    (comparable : Comparable a b) :
    ∃ r s, a.rank? = some r ∧ b.rank? = some s ∧ a.order? b = some (compare r s) := by
  obtain ⟨r, there⟩ := left.exists_rank comparable.2
  obtain ⟨s, there'⟩ := right.exists_rank (comparable.1 ▸ comparable.2)
  exact ⟨r, s, there, there', order?_of_rank there there' comparable.1⟩

theorem Definite.trichotomy {a b : Value} (left : a.Definite) (right : b.Definite)
    (comparable : Comparable a b) :
    (a.order? b = some .lt ∧ a.same b = false) ∨ (a.order? b = some .eq ∧ a.same b = true) ∨
      (a.order? b = some .gt ∧ a.same b = false) := by
  obtain ⟨r, s, there, there', order⟩ := left.order?_eq right comparable
  have equal : a.same b = true ↔ s = r := by rw [same_iff_rank there, there', Option.some_inj]
  rw [order, ← Bool.not_eq_true, equal, Option.some_inj, Option.some_inj, Option.some_inj,
    compare_lt_iff_lt, compare_eq_iff_eq, compare_gt_iff_gt]
  rcases lt_trichotomy r s with before | rfl | behind
  · exact .inl ⟨before, before.ne'⟩
  · exact .inr (.inl ⟨rfl, rfl⟩)
  · exact .inr (.inr ⟨behind, behind.ne⟩)

theorem Definite.order?_swap {a b : Value} (left : a.Definite) (right : b.Definite) :
    b.order? a = (a.order? b).map Ordering.swap := by
  by_cases comparable : Comparable a b
  · have comparable' : Comparable b a := ⟨comparable.1.symm, comparable.1 ▸ comparable.2⟩
    obtain ⟨r, s, there, there', order⟩ := left.order?_eq right comparable
    rw [order, order?_of_rank there' there comparable'.1, Option.map_some, swap_compare]
  · have comparable' : ¬ Comparable b a := fun other =>
      comparable ⟨other.1.symm, other.1 ▸ other.2⟩
    rw [order?_eq_none_iff.mpr comparable, order?_eq_none_iff.mpr comparable']
    rfl

theorem compare_then {α : Type} [LinearOrder α] {r s t : α} (first : compare r s ≠ .gt)
    (second : compare s t ≠ .gt) : compare r t = (compare r s).then (compare s t) := by
  have below : r ≤ s := not_lt.mp (mt compare_gt_iff_gt.mpr first)
  have below' : s ≤ t := not_lt.mp (mt compare_gt_iff_gt.mpr second)
  rcases below.lt_or_eq with before | rfl
  · rw [compare_lt_iff_lt.mpr before, compare_lt_iff_lt.mpr (before.trans_le below')]
    rfl
  · rw [compare_eq_iff_eq.mpr rfl]
    rfl

theorem Definite.order?_trans {a b c : Value} (first : a.Definite) (second : b.Definite)
    (third : c.Definite) {o o' : Ordering} (left : a.order? b = some o)
    (right : b.order? c = some o') (notGreater : o ≠ .gt) (notGreater' : o' ≠ .gt) :
    a.order? c = some (o.then o') := by
  have comparable : Comparable a b := by
    by_contra other
    rw [order?_eq_none_iff.mpr other] at left
    cases left
  have comparable' : Comparable b c := by
    by_contra other
    rw [order?_eq_none_iff.mpr other] at right
    cases right
  obtain ⟨r, s, there, there', order⟩ := first.order?_eq second comparable
  obtain ⟨s', t, again, there'', order'⟩ := second.order?_eq third comparable'
  cases there'.symm.trans again
  rw [order, Option.some_inj] at left
  rw [order', Option.some_inj] at right
  subst left right
  rw [order?_of_rank there there'' (comparable.1.trans comparable'.1),
    compare_then notGreater notGreater']

theorem Definite.order?_congr {a a' b b' : Value} (left : a.Definite) (right : b.Definite)
    (same : a.same a' = true) (same' : b.same b' = true) : a.order? b = a'.order? b' := by
  have kind := kind_of_same same
  have kind' := kind_of_same same'
  by_cases comparable : Comparable a b
  · obtain ⟨r, s, there, there', order⟩ := left.order?_eq right comparable
    rw [order, order?_of_rank ((same_iff_rank there).mp same) ((same_iff_rank there').mp same')
      (kind ▸ kind' ▸ comparable.1)]
  · have comparable' : ¬ Comparable a' b' := by
      rw [Comparable, kind, kind'] at comparable
      exact comparable
    rw [order?_eq_none_iff.mpr comparable, order?_eq_none_iff.mpr comparable']

/-! What holds of both -/

theorem bool_apart (b : Bool) {n : Value} (number : n.kind = .number) :
    (bool b).same n = false ∧ n.same (bool b) = false := by
  cases n <;> first | exact ⟨rfl, rfl⟩ | cases number

theorem Definite.binary_congr {op : BinaryOp} (compares : op.compares) {a a' b b' : Value}
    (left : a.Definite) (left' : a'.Definite) (right : b.Definite) (right' : b'.Definite)
    (same : a.same a' = true) (same' : b.same b' = true) :
    Value.binary op a b = Value.binary op a' b' := by
  have equal := left.same_congr left' right right' same same'
  have order := left.order?_congr right same same'
  have compared (p : Ordering → Bool) : compared a b p = compared a' b' p := by
    rw [Value.compared, Value.compared, order, kind_of_same same, kind_of_same same']
  cases op with
  | eq => rw [binary, binary, equal]
  | ne => rw [binary, binary, equal]
  | lt => exact compared _
  | le => exact compared _
  | gt => exact compared _
  | ge => exact compared _
  | _ => cases compares

/-- What can be relied on when values of a domain are compared and looked for in lists. -/
structure Coherent (domain : Value → Prop) : Prop where
  refl : ∀ a, domain a → a.same a = true
  symm : ∀ a b, domain a → domain b → a.same b = true → b.same a = true
  trans : ∀ a b c, domain a → domain b → domain c → a.same b = true → b.same c = true →
    a.same c = true
  /-- A boolean is no number. -/
  apart : ∀ (b : Bool) (n : Value), n.kind = .number →
    (bool b).same n = false ∧ n.same (bool b) = false
  /-- Numbers, whole or binary, are compared by their exact values. -/
  measured : ∀ a b, domain a → domain b → a.kind = .number → b.kind = .number →
    ∃ p q, a.magnitude? = some p ∧ b.magnitude? = some q ∧
      (a.same b = true ↔ p = q) ∧ a.order? b = some (compare p q)
  /-- The order of entries does not count, at any depth. -/
  rearranged : ∀ a a' b b', domain a → domain b → Rearranged a a' → Rearranged b b' →
    a.same b = a'.same b'
  /-- Equal items may stand for each other. -/
  items : ∀ items others, List.Forall₂ (fun a b => a.same b = true) items others →
    (list items).same (list others) = true
  /-- Equal values may stand for each other under their keys. -/
  entries : ∀ entries others, domain (map entries) →
    List.Forall₂ (fun e f => e.1 = f.1 ∧ e.2.same f.2 = true) entries others →
      (map entries).same (map others) = true
  /-- Of two numbers, and of two texts, one comes first or both are equal. -/
  trichotomy : ∀ a b, domain a → domain b → Comparable a b →
    (a.order? b = some .lt ∧ a.same b = false) ∨ (a.order? b = some .eq ∧ a.same b = true) ∨
      (a.order? b = some .gt ∧ a.same b = false)
  swap : ∀ a b, domain a → domain b → b.order? a = (a.order? b).map Ordering.swap
  /-- What is not behind a second value that is not behind a third is not behind the third, and
  level with it only if all three are level. -/
  chain : ∀ a b c, domain a → domain b → domain c → ∀ o o', a.order? b = some o →
    b.order? c = some o' → o ≠ .gt → o' ≠ .gt → a.order? c = some (o.then o')
  order_congr : ∀ a a' b b', domain a → domain b → a.same a' = true → b.same b' = true →
    a.order? b = a'.order? b'
  /-- Operators that compare give the same answer, or refuse with the same words, for equal
  operands. -/
  answers : ∀ op : BinaryOp, op.compares → ∀ a a' b b', domain a → domain a' → domain b →
    domain b' → a.same a' = true → b.same b' = true →
      Value.binary op a b = Value.binary op a' b'
  /-- Equal values are in the same lists and in equal ones. -/
  among : ∀ items others x y, domain (list items) → domain (list others) → domain x → domain y →
    (list items).same (list others) = true → x.same y = true →
      Value.binary .among x (list items) = Value.binary .among y (list others)

/-- Values without NaN are compared coherently. -/
theorem definite_coherent : Coherent Definite where
  refl _ definite := definite.same_refl
  symm _ _ left right := left.same_symm right
  trans _ _ _ first second third := first.same_trans second third
  apart b _ number := bool_apart b number
  measured a b left right number number' := by
    obtain ⟨p, exact⟩ := left.exists_magnitude number
    obtain ⟨q, exact'⟩ := right.exists_magnitude number'
    obtain ⟨order, same⟩ := order?_of_magnitude exact exact'
    refine ⟨p, q, exact, exact', ?_, order⟩
    rw [same, beq_iff_eq, compare_eq_iff_eq]
  rearranged a a' b b' left right order order' := by
    obtain ⟨left', same⟩ := order.same left
    obtain ⟨right', same'⟩ := order'.same right
    exact left.same_congr left' right right' same same'
  items _ _ := same_of_items
  entries _ _ definite := same_of_entries definite.nodup
  trichotomy _ _ left right := left.trichotomy right
  swap _ _ left right := left.order?_swap right
  chain _ _ _ first second third _ _ := first.order?_trans second third
  order_congr _ _ _ _ left right := left.order?_congr right
  answers _ compares _ _ _ _ left left' right right' :=
    left.binary_congr compares left' right right'
  among items others x y definite definite' left right same equal := by
    rw [binary, binary, holds_congr definite definite' same left right equal]

/-- Two of the same entries, in another order and with a whole number for a binary one; and two
numbers that would be one if the whole number were rounded. -/
theorem coherent_beyond_rounding :
    let two : Value := .float (.ofInt 2)
    let a : Value := .map [("x", .int 2), ("y", .bool true)]
    let b : Value := .map [("y", .bool true), ("x", two)]
    let whole : Value := .int 9007199254740993
    let binary : Value := .float (.ofInt 9007199254740992)
    (a.Definite ∧ b.Definite ∧ a.same b = true ∧ b.same a = true ∧
      Value.binary .among a (.list [.null, a]) = Value.binary .among b (.list [.null, b])) ∧
    whole.order? binary = some .gt ∧ binary.order? whole = some .lt ∧ whole.same binary = false := by
  intro two a b whole binary
  have definite : a.Definite := by
    refine .map (by decide) (List.forall_mem_cons.mpr ⟨.int 2, ?_⟩)
    exact List.forall_mem_singleton.mpr (.bool true)
  have definite' : b.Definite := by
    refine .map (by decide) (List.forall_mem_cons.mpr ⟨.bool true, ?_⟩)
    exact List.forall_mem_singleton.mpr (.float (by decide +kernel))
  have listed {v : Value} (inner : v.Definite) : (list [.null, v]).Definite :=
    .list (List.forall_mem_cons.mpr ⟨.null, List.forall_mem_singleton.mpr inner⟩)
  have same : a.same b = true := by decide +kernel
  have lists : (list [.null, a]).same (list [.null, b]) = true := by decide +kernel
  have greater : whole.order? binary = some .gt := by decide +kernel
  have rounded : binary.Definite := .float (by decide +kernel)
  refine ⟨⟨definite, definite', same, ?_, ?_⟩, greater, ?_, ?_⟩
  · exact definite_coherent.symm a b definite definite' same
  · exact definite_coherent.among _ _ a b (listed definite) (listed definite') definite definite'
      lists same
  · rw [definite_coherent.swap whole binary (.int _) rounded, greater]
    rfl
  · rcases definite_coherent.trichotomy whole binary (.int _) rounded ⟨rfl, .inl rfl⟩ with
      ⟨less, -⟩ | ⟨equal, -⟩ | ⟨-, other⟩
    · rw [greater] at less
      cases less
    · rw [greater] at equal
      cases equal
    · exact other

end Value
end Parley
