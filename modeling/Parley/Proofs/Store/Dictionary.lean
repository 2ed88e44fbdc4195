import Parley.Proofs.Store.Mirror

/-!
A store and its views as one dictionary. What a dictionary does is said by searching, mapping and
filtering a list of entries and names no operation of a store. Whatever is asked of a store, or of
any of the views that were opened on it, is answered as this dictionary answers it, as long as no
listener interferes.
-/
namespace Parley

/-! Dictionaries -/

namespace Dictionary

variable {α : Type}

def holds (name : String) (d : List (String × α)) : Bool := d.any (·.1 == name)

/-- Writes under a name: in the place that the name has, else behind all others. -/
def set (name : String) (a : α) (d : List (String × α)) : List (String × α) :=
  if holds name d then d.map fun entry => if entry.1 = name then (name, a) else entry
  else d ++ [(name, a)]

def delete (name : String) (d : List (String × α)) : List (String × α) :=
  d.filter (·.1 != name)

theorem get?_eq_lookup (name : String) (d : List (String × α)) :
    Assoc.get? name d = d.lookup name := by
  induction d with
  | nil => rfl
  | cons entry rest ih =>
    obtain ⟨k, a⟩ := entry
    by_cases same : k = name
    · simp [Assoc.get?, same]
    · have other : (name == k) = false := beq_eq_false_iff_ne.mpr (Ne.symm same)
      rw [Assoc.get?, if_neg same, List.lookup_cons, other, ih]

theorem map_of_absent {name : String} {d : List (String × α)} (absent : name ∉ Assoc.keys d)
    (a : α) : (d.map fun entry => if entry.1 = name then (name, a) else entry) = d := by
  refine (List.map_congr_left fun entry member => if_neg fun same => ?_).trans (List.map_id d)
  exact absent (same ▸ List.mem_map_of_mem member)

/-- Where no name stands twice, the entry that is replaced is the first one that is found. -/
theorem insert_eq_set {d : List (String × α)} (distinct : (Assoc.keys d).Nodup) (name : String)
    (a : α) : Assoc.insert name a d = set name a d := by
  induction d with
  | nil => rfl
  | cons entry rest ih =>
    obtain ⟨k, b⟩ := entry
    obtain ⟨fresh, distinct⟩ := List.nodup_cons.mp distinct
    by_cases same : k = name
    · subst same
      have others := map_of_absent fresh a
      simp [Assoc.insert, set, holds, others]
    · have later := ih distinct
      rw [Assoc.insert, if_neg same, later]
      by_cases there : holds name rest <;> simp_all [set, holds]

theorem erase_eq_delete {d : List (String × α)} (distinct : (Assoc.keys d).Nodup)
    (name : String) : Assoc.erase name d = delete name d := by
  rw [Assoc.erase_eq_filter distinct, delete]
  congr 1
  funext entry
  by_cases same : entry.1 = name <;> simp [same]

end Dictionary

/-! Requests -/

/-- What can be asked of a store or of a view of it. What is asked of both in the same way stands
here once. -/
inductive Request where
  | set (name : String) (value : Value)
  | remove (name : String)
  | addAll (values : Bindings)
  | get (name : String)
  | getValue (name : String)
  | snapshot
  /-- Asked of either. -/
  | contains (name : String)
  | size
  | names
  | clear
  /-- Asked of a view. -/
  | item (name : String)
  | itemOr (name : String) (standard : Value)
  | insert (name : String) (value : Value)
  | erase (name : String)
  | update (values beside : Bindings)
  | pop (name : String) (standard : Option Value)
  | popFirst
  | getOrInsert (name : String) (value : Value)

inductive Answer where
  | nothing
  | value (value : Value)
  | record (v : Option Variable)
  | records (vs : List Variable)
  | entry (name : String) (value : Value)
  | truth (b : Bool)
  | number (n : Nat)
  | names (names : List String)
  | bindings (entries : Bindings)

namespace Request

open LiveStore

def run (origin : Origin) : Request → Run LiveStore Answer
  | set name value => do return .record (← setValue name value origin)
  | remove name => do return .record (← LiveStore.remove name origin)
  | addAll values => do return .records (← LiveStore.addAll values origin)
  | get name => do return .record ((← MonadState.get).store.get? name)
  | getValue name => do return .value (((← MonadState.get).store.value? name).getD .null)
  | snapshot => do return .bindings (← MonadState.get).store.snapshot
  | contains name => do return .truth ((← MonadState.get).store.contains name)
  | size => do return .number (← MonadState.get).store.size
  | names => do return .names (← MonadState.get).store.names
  | clear => do
      LiveStore.clear origin
      return .nothing
  | item name => do return .value (← View.get name)
  | itemOr name standard => do return .value (← View.getD name standard)
  | insert name value => do
      View.insert origin name value
      return .nothing
  | erase name => do
      View.erase origin name
      return .nothing
  | update values beside => do
      View.update origin values beside
      return .nothing
  | pop name standard => do return .value (← View.pop origin name standard)
  | popFirst => do
      let (name, value) ← View.popFirst origin
      return .entry name value
  | getOrInsert name value => do return .value (← View.getOrInsert origin name value)

/-- Whether a request may take names away. -/
def takes : Request → Bool
  | remove _ | clear | erase _ | pop .. | popFirst => true
  | _ => false

/-- The names that a request may write under. -/
def written : Request → List String
  | set name _ | insert name _ | getOrInsert name _ => [name]
  | addAll values => values.map (·.1)
  | update values beside => (values ++ beside).map (·.1)
  | _ => []

end Request

/-! Stores as dictionaries -/

namespace LiveStore

/-- Whether a store has become another one of the same user, which holds some variables and with
which no listener interferes. -/
structure Became (s : LiveStore) (held : List (String × Variable)) (t : LiveStore) : Prop where
  held : t.store.held = held
  user : t.store.user = s.store.user
  regular : Operation.Regular t

section Steps

variable {s : LiveStore} (regular : Operation.Regular s) (origin : Origin)
include regular

theorem became_of_announced {c : Change} {audience : List String} {t : LiveStore}
    (announced : Announced (some c) audience s t) : Became s (Store.replay s.store.held c) t :=
  ⟨announced.held, announced.user, Operation.regular_of_announced regular announced⟩

theorem setValue_eq_set (name : String) (value : Value) :
    let v := Variable.stamped name value (s.timeOf origin)
    ∃ t, setValue name value origin s = (.ok v, t) ∧
      Became s (Dictionary.set name v s.store.held) t := by
  intro v
  obtain ⟨t, written, announced⟩ := setValue_of_harmless regular.harmless name value origin
  have became := became_of_announced regular announced
  refine ⟨t, written, ?_⟩
  rwa [← Dictionary.insert_eq_set regular.distinct]

theorem remove_eq_delete (name : String) :
    ∃ t, LiveStore.remove name origin s = (.ok (s.store.held.lookup name), t) ∧
      Became s (Dictionary.delete name s.store.held) t := by
  have deleted := Dictionary.erase_eq_delete regular.distinct name
  rw [← Dictionary.get?_eq_lookup]
  cases found : Assoc.get? name s.store.held with
  | some v =>
    obtain ⟨t, removed, announced⟩ := remove_of_some regular.harmless found origin
    have became := became_of_announced regular announced
    exact ⟨t, removed, deleted ▸ became⟩
  | none =>
    refine ⟨s, remove_of_none found origin, ?_, rfl, regular⟩
    rw [← deleted, Assoc.erase_of_absent found]

theorem erase_eq_delete {name : String} {v : Variable}
    (found : s.store.held.lookup name = some v) :
    ∃ t, View.erase origin name s = (.ok (), t) ∧
      Became s (Dictionary.delete name s.store.held) t := by
  obtain ⟨t, removed, became⟩ := remove_eq_delete regular origin name
  refine ⟨t, ?_, became⟩
  rw [View.erase, Run.bind_apply, removed, found]
  rfl

omit regular in
theorem erase_of_absent {name : String} (absent : s.store.held.lookup name = none) :
    View.erase origin name s = (.error .missing, s) := by
  rw [← Dictionary.get?_eq_lookup] at absent
  rw [View.erase, Run.bind_apply, remove_of_none absent]
  rfl

theorem insert_eq_set (name : String) (value : Value) :
    ∃ t, View.insert origin name value s = (.ok (), t) ∧
      Became s (Dictionary.set name (.stamped name value (s.timeOf origin)) s.store.held) t := by
  obtain ⟨t, written, became⟩ := setValue_eq_set regular origin name value
  refine ⟨t, ?_, became⟩
  rw [View.insert, Run.bind_apply, written]
  rfl

end Steps

end LiveStore

namespace Request

open LiveStore

end Request

/-- A request at some time. A view is known by the origin that its writes are given; what is asked
of the store itself brings its own. -/
structure Inquiry where
  now : Int
  origin : Origin
  request : Request

namespace Inquiry

open LiveStore

def run (s : LiveStore) (q : Inquiry) : Except Failure Answer × LiveStore :=
  q.request.run q.origin { s with now := q.now }

def time (user : User) (q : Inquiry) : Instant := q.origin.time.getD ⟨q.now, some user.zone⟩

/-- The answers to some requests, one after the other, and what is left behind them. -/
def answers {σ : Type} (reply : σ → Inquiry → Except Failure Answer × σ) (s : σ) :
    List Inquiry → List (Except Failure Answer) × σ
  | [] => ([], s)
  | q :: rest =>
      let (answer, next) := reply s q
      let (later, last) := answers reply next rest
      (answer :: later, last)

/-- What is true of every request to a store, whatever has been asked of it before. A name that
holds nothing but null is still there. -/
structure Orderly (s : LiveStore) : Prop where
  refused : ∀ q e, (run s q).1 = .error e →
    e = .missing ∧ (run s q).2.store.held = s.store.held
  kept : ∀ q, q.request.takes = false → s.store.names <+: (run s q).2.store.names
  replaced : ∀ q, q.request.takes = false → (∀ name ∈ q.request.written, name ∈ s.store.names) →
    (run s q).2.store.names = s.store.names
  null : ∀ name v, s.store.held.lookup name = some v → v.value = .null → ∀ now origin standard,
    (run s ⟨now, origin, .contains name⟩).1 = .ok (.truth true) ∧
      (run s ⟨now, origin, .item name⟩).1 = .ok (.value .null) ∧
      (run s ⟨now, origin, .itemOr name standard⟩).1 = .ok (.value .null) ∧
      (run s ⟨now, origin, .get name⟩).1 = .ok (.record (some v)) ∧
      (run s ⟨now, origin, .pop name (some standard)⟩).1 = .ok (.value .null) ∧
      (run s ⟨now, origin, .getOrInsert name standard⟩).1 = .ok (.value .null) ∧
      (run s ⟨now, origin, .erase name⟩).1 = .ok .nothing
  absent : ∀ name, s.store.held.lookup name = none → ∀ now origin standard,
    (run s ⟨now, origin, .contains name⟩).1 = .ok (.truth false) ∧
      (run s ⟨now, origin, .item name⟩).1 = .error .missing ∧
      (run s ⟨now, origin, .itemOr name standard⟩).1 = .ok (.value standard) ∧
      (run s ⟨now, origin, .get name⟩).1 = .ok (.record none) ∧
      (run s ⟨now, origin, .pop name (some standard)⟩).1 = .ok (.value standard) ∧
      (run s ⟨now, origin, .getOrInsert name standard⟩).1 = .ok (.value standard) ∧
      (run s ⟨now, origin, .erase name⟩).1 = .error .missing

end Inquiry
end Parley
