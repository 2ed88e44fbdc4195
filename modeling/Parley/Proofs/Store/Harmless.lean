import Parley.Proofs.Outcome
import Parley.Store.Live

/-!
Listeners that leave the variables alone. They may come and go when they hear of a change, but they
neither write to the store nor refuse the change. A change to a store with such listeners takes
place as it is meant to, and each of them is called once for each time that it is registered. What a
write and a call come to is said for any listeners first.
-/
namespace Parley

/-- Whether a reaction writes to no variable and refuses no change. -/
def Reaction.isHarmless : Reaction → Bool
  | .attach _ | .detach _ => true
  | .refuse | .set .. | .remove .. => false

/-- The changes that a listener was told of in some calls. -/
def changesFor (listener : String) (calls : List Call) : List Change :=
  (calls.filter (·.listener == listener)).map (·.change)

/-- A store when a change has been made. -/
def Store.make (store : Store) (change : Change) : Store :=
  { store with held := replay store.held change }

namespace LiveStore

def Harmless (s : LiveStore) : Prop := ∀ entry ∈ s.reactions, ∀ r ∈ entry.2, r.isHarmless

instance (s : LiveStore) : Decidable s.Harmless :=
  inferInstanceAs (Decidable (∀ entry ∈ s.reactions, ∀ r ∈ entry.2, r.isHarmless))

/-- Who hears of a change. -/
def audience (s : LiveStore) (origin : Origin) : List String :=
  if origin.notify then s.store.listeners else []

/-- Whether a store has become another one by a change of which some listeners were told, or by
none. They are told what the variables are when the change has been made. -/
structure Announced (change : Option Change) (audience : List String) (s t : LiveStore) : Prop where
  held : t.store.held = change.toList.foldl Store.replay s.store.held
  calls : t.calls = s.calls ++
    change.toList.flatMap fun c => audience.map fun listener => ⟨listener, c, t.store.snapshot⟩
  user : t.store.user = s.store.user
  now : t.now = s.now
  harmless : t.Harmless

theorem Announced.none {audience : List String} {s : LiveStore} (harmless : s.Harmless) :
    Announced .none audience s s :=
  ⟨rfl, by simp, rfl, rfl, harmless⟩

/-- Whether a way to react does no more than change who listens, for reactions that may do that. -/
def Mild (react : Reaction → Run LiveStore Unit) : Prop :=
  ∀ r, r.isHarmless → ∀ s, ∃ listeners,
    react r s = (.ok (), { s with store := { s.store with listeners } })

theorem mild_react (tell : Change → Run LiveStore Unit) : Mild (react tell) := by
  intro r harmless s
  cases r with
  | attach listener => exact ⟨_, rfl⟩
  | detach listener => exact ⟨_, rfl⟩
  | refuse => cases harmless
  | set name value origin => cases harmless
  | remove name origin => cases harmless

theorem mild_pure : Mild fun _ => pure () := fun _ _ s => ⟨s.store.listeners, rfl⟩

/-- Whether a listener still has a reaction in store. -/
def MayReact (s : LiveStore) (listener : String) (r : Reaction) : Prop :=
  ∃ rs, (listener, rs) ∈ s.reactions ∧ r ∈ rs

/-- Whether a store has no reactions left that another one does not have. -/
def Within (s base : LiveStore) : Prop :=
  ∀ listener r, s.MayReact listener r → base.MayReact listener r

theorem exists_nextReaction (listener : String) (s : LiveStore) :
    ∃ next reactions, nextReaction listener s = (.ok next, { s with reactions }) ∧
      (∀ r ∈ next, s.MayReact listener r) ∧ Within { s with reactions } s := by
  rw [nextReaction, Run.bind_apply, Run.get_apply, Run.andThen_ok]
  cases found : Assoc.get? listener s.reactions with
  | none => exact ⟨none, s.reactions, rfl, by simp, fun _ _ may => may⟩
  | some left =>
    have member := Assoc.mem_of_get? found
    cases left with
    | nil => exact ⟨none, s.reactions, rfl, by simp, fun _ _ may => may⟩
    | cons first rest =>
      refine ⟨some first, Assoc.insert listener rest s.reactions, rfl, ?_, ?_⟩
      · rintro r ⟨⟩
        exact ⟨_, member, List.mem_cons_self⟩
      · rintro other r ⟨rs, inside, held⟩
        rcases Assoc.mem_insert inside with same | inside
        · cases same
          exact ⟨_, member, List.mem_cons_of_mem first held⟩
        · exact ⟨rs, inside, held⟩

theorem Harmless.of_mayReact {s : LiveStore} (harmless : s.Harmless) {listener : String}
    {r : Reaction} (may : s.MayReact listener r) : r.isHarmless := by
  obtain ⟨rs, inside, held⟩ := may
  exact harmless _ inside r held

theorem nextReaction_of_harmless (listener : String) {s : LiveStore} (harmless : s.Harmless) :
    ∃ next reactions, nextReaction listener s = (.ok next, { s with reactions }) ∧
      (∀ r ∈ next, r.isHarmless) ∧ Harmless { s with reactions } := by
  obtain ⟨next, reactions, taken, may, fewer⟩ := exists_nextReaction listener s
  exact ⟨next, reactions, taken, fun r member => harmless.of_mayReact (may r member),
    fun entry inside r held => harmless.of_mayReact (fewer entry.1 r ⟨entry.2, inside, held⟩)⟩

/-- What a listener does who may have no reaction left. -/
def respond (react : Reaction → Run LiveStore Unit) : Option Reaction → Run LiveStore Unit
  | none => pure ()
  | some r => react r

theorem fanOut_cons {react : Reaction → Run LiveStore Unit} {change : Change} {listener : String}
    {rest : List String} {s poorer : LiveStore} {next : Option Reaction}
    (taken : nextReaction listener
      { s with calls := s.calls ++ [⟨listener, change, s.store.snapshot⟩] } = (.ok next, poorer)) :
    fanOut react change (listener :: rest) s =
      Run.andThen (fun _ => fanOut react change rest) (respond react next poorer) := by
  rw [fanOut, Run.bind_apply, Run.modify_apply, Run.andThen_ok, Run.bind_apply, taken,
    Run.andThen_ok]
  cases next with
  | none => rfl
  | some r => exact Run.bind_apply _ _ _

/-- Each listener is called, in the order given, and the variables stay as they are. -/
theorem fanOut_of_harmless {react : Reaction → Run LiveStore Unit} (mild : Mild react)
    (change : Change) (listeners : List String) {s : LiveStore} (harmless : s.Harmless) :
    ∃ remaining reactions, fanOut react change listeners s =
      (.ok (), { s with
        store := { s.store with listeners := remaining }
        reactions
        calls := s.calls ++ listeners.map fun l => ⟨l, change, s.store.snapshot⟩ }) ∧
      Harmless { s with reactions } := by
  induction listeners generalizing s with
  | nil => exact ⟨s.store.listeners, s.reactions, by simp [fanOut], harmless⟩
  | cons listener rest ih =>
    let called : LiveStore := { s with calls := s.calls ++ [⟨listener, change, s.store.snapshot⟩] }
    obtain ⟨next, left, taken, allowed, fewer⟩ :=
      @nextReaction_of_harmless listener called harmless
    -- The reaction changes at most who listens, so the rest hear of the same variables.
    have reacted : ∃ present, respond react next { called with reactions := left } =
        (.ok (), { called with
          store := { s.store with listeners := present }, reactions := left }) := by
      cases next with
      | none => exact ⟨s.store.listeners, rfl⟩
      | some r => exact mild r (allowed r rfl) _
    obtain ⟨present, reacted⟩ := reacted
    have still : Harmless { called with
        store := { s.store with listeners := present }, reactions := left } := fewer
    obtain ⟨remaining, reactions, heard, harmless⟩ := ih still
    refine ⟨remaining, reactions, ?_, harmless⟩
    rw [fanOut_cons taken, reacted, Run.andThen_ok, heard, List.map_cons, ← List.append_cons]
    rfl

theorem announce_of_harmless (change : Change) {s : LiveStore} (harmless : s.Harmless) :
    ∃ remaining reactions, announce change s =
      (.ok (), { s with
        store := { s.store with listeners := remaining }
        reactions
        calls := s.calls ++ s.store.listeners.map fun l => ⟨l, change, s.store.snapshot⟩ }) ∧
      Harmless { s with reactions } := by
  have told : announce change s = notify s.reactionsLeft change s := rfl
  rw [told]
  cases s.reactionsLeft with
  | zero => exact fanOut_of_harmless mild_pure change s.store.listeners harmless
  | succ depth => exact fanOut_of_harmless (mild_react _) change s.store.listeners harmless

/-! Changes -/

/-- Makes a change of some kind and tells the listeners of it. -/
def making (tell : Change → Run LiveStore Unit) (origin : Origin) (kind : ChangeKind) :
    Run LiveStore Unit := fun s =>
  told tell origin (s.timeOf origin) kind
    { s with store := s.store.make ⟨kind, s.timeOf origin, origin.source⟩ }

section Making

variable (tell : Change → Run LiveStore Unit) (origin : Origin) (s : LiveStore)

theorem setWith_apply (name : String) (value : Value) :
    let v := Variable.stamped name value (s.timeOf origin)
    setWith tell name value origin s =
      Run.andThen (fun _ => pure v) (making tell origin (.put [v]) s) := by
  simp only [setWith, onStore, Run.bind_apply, Run.get_apply, Run.andThen_ok, Run.modify_apply]
  rfl

variable {s} {name : String}

theorem removeWith_of_some {v : Variable} (held : s.store.get? name = some v) :
    removeWith tell name origin s =
      Run.andThen (fun _ => pure (some v)) (making tell origin (.remove [name]) s) := by
  simp only [removeWith, onStore, Run.bind_apply, Run.get_apply, Run.andThen_ok, held,
    Run.modify_apply]
  rfl

theorem removeWith_of_none (absent : s.store.get? name = none) :
    removeWith tell name origin s = (.ok none, s) := by
  simp only [removeWith, Run.bind_apply, Run.get_apply, Run.andThen_ok, absent]
  rfl

end Making

section Harmless

variable {s : LiveStore} (harmless : s.Harmless)
include harmless

/-- A change that listeners leave alone is made and announced as it is. -/
theorem making_of_harmless (origin : Origin) (kind : ChangeKind) :
    ∃ t, making announce origin kind s = (.ok (), t) ∧
      Announced (some ⟨kind, s.timeOf origin, origin.source⟩) (s.audience origin) s t := by
  let change : Change := ⟨kind, s.timeOf origin, origin.source⟩
  unfold making told audience
  cases origin.notify with
  | false => exact ⟨{ s with store := s.store.make change }, rfl, rfl, by simp, rfl, rfl, harmless⟩
  | true =>
    obtain ⟨remaining, reactions, heard, still⟩ :=
      @announce_of_harmless change { s with store := s.store.make change } harmless
    exact ⟨_, heard, rfl, by simp [Store.make, Store.snapshot, change], rfl, rfl, still⟩

theorem setValue_of_harmless (name : String) (value : Value) (origin : Origin) :
    ∃ t, setValue name value origin s = (.ok (.stamped name value (s.timeOf origin)), t) ∧
      Announced (some ⟨.put [.stamped name value (s.timeOf origin)], s.timeOf origin,
        origin.source⟩)
        (s.audience origin) s t := by
  obtain ⟨t, made, announced⟩ := making_of_harmless harmless origin
    (.put [.stamped name value (s.timeOf origin)])
  refine ⟨t, ?_, announced⟩
  rw [setValue, setWith_apply, made]
  rfl

theorem remove_of_some {name : String} {v : Variable} (held : s.store.get? name = some v)
    (origin : Origin) :
    ∃ t, remove name origin s = (.ok (some v), t) ∧
      Announced (some ⟨.remove [name], s.timeOf origin, origin.source⟩)
        (s.audience origin) s t := by
  obtain ⟨t, made, announced⟩ := making_of_harmless harmless origin (.remove [name])
  refine ⟨t, ?_, announced⟩
  rw [remove, removeWith_of_some announce origin held, made]
  rfl

end Harmless

theorem remove_of_none {s : LiveStore} {name : String} (absent : s.store.get? name = none)
    (origin : Origin) : remove name origin s = (.ok none, s) :=
  removeWith_of_none announce origin absent

end LiveStore
end Parley
