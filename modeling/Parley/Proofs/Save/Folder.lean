import Mathlib.Data.List.Induction
import Parley.Save.Folder

/-!
What stands in a folder of saves after any number of saves and deletions. Each of them touches the
one file that is named after its user; two users whose identifiers give the same name share a file.
-/
namespace Parley

namespace SaveFolder

variable {α β : Type} {f f' : SaveFolder}

/-- Whether an action succeeds in a folder, what it gives, and the folder behind it. -/
def Succeeds (x : Action α) (f : SaveFolder) (a : α) (f' : SaveFolder) : Prop := x f = (.ok a, f')

theorem apply_bind {x : Action α} {k : α → Action β} {a : α} {m : SaveFolder}
    (first : Succeeds x f a m) : (x >>= k) f = k a m := by
  have run : (x >>= k) f = ExceptT.bindCont k (x f).1 (x f).2 := rfl
  rw [run, first]
  rfl

theorem succeeds_bind {x : Action α} {k : α → Action β} {b : β} :
    Succeeds (x >>= k) f b f' ↔ ∃ a m, Succeeds x f a m ∧ Succeeds (k a) m b f' := by
  constructor
  · intro done
    have run : (x >>= k) f = ExceptT.bindCont k (x f).1 (x f).2 := rfl
    rw [Succeeds, run] at done
    generalize same : x f = first at done
    obtain ⟨result, m⟩ := first
    cases result with
    | error e => cases (Prod.mk.inj done).1
    | ok a => exact ⟨a, m, same, done⟩
  · rintro ⟨a, m, first, later⟩
    rw [Succeeds, apply_bind first]
    exact later

theorem succeeds_pure {a b : α} : Succeeds (pure a) f b f' ↔ b = a ∧ f' = f := by
  constructor
  · rintro ⟨⟩
    exact ⟨rfl, rfl⟩
  · rintro ⟨rfl, rfl⟩
    rfl

theorem succeeds_get {g : SaveFolder} : Succeeds get f g f' ↔ g = f ∧ f' = f := by
  constructor
  · rintro ⟨⟩
    exact ⟨rfl, rfl⟩
  · rintro ⟨rfl, rfl⟩
    rfl

theorem succeeds_modify {change : SaveFolder → SaveFolder} {u : Unit} :
    Succeeds (modify change) f u f' ↔ f' = change f := by
  constructor
  · rintro ⟨⟩
    rfl
  · rintro rfl
    rfl

theorem not_succeeds_throw {e : SaveFailure} {a : α} : ¬Succeeds (throw e) f a f' := by
  intro same
  cases (Prod.mk.inj same).1

/-- What stands under a name; nothing, unless there is an entry. -/
def standing (f : SaveFolder) (name : String) : Entry := (Assoc.get? name f.files).getD .nothing

/-- Whether a file can have a name. -/
def Short (name : String) : Prop := name.utf8ByteSize ≤ 255

instance : DecidablePred Short := fun name => inferInstanceAs (Decidable (name.utf8ByteSize ≤ 255))

theorem place_eq_some_iff {name : String} {e : Entry} :
    f.place? name = some e ↔ Short name ∧ e = f.standing name := by
  unfold place? Short
  split
  · rename_i short
    constructor
    · rintro ⟨⟩
      exact ⟨short, rfl⟩
    · rintro ⟨_, rfl⟩
      rfl
  · rename_i long
    constructor
    · rintro ⟨⟩
    · rintro ⟨short, _⟩
      exact absurd short long

theorem succeeds_find {name : String} {e : Entry} :
    Succeeds (find name) f e f' ↔ Short name ∧ e = f.standing name ∧ f' = f := by
  rw [find, succeeds_bind]
  constructor
  · rintro ⟨g, m, got, found⟩
    obtain ⟨rfl, rfl⟩ := succeeds_get.mp got
    split at found
    · rename_i entry here
      obtain ⟨rfl, rfl⟩ := succeeds_pure.mp found
      obtain ⟨short, same⟩ := place_eq_some_iff.mp here
      exact ⟨short, same, rfl⟩
    · exact (not_succeeds_throw found).elim
  · rintro ⟨short, same, rfl⟩
    refine ⟨f', f', succeeds_get.mpr ⟨rfl, rfl⟩, ?_⟩
    rw [place_eq_some_iff.mpr ⟨short, same⟩]
    exact succeeds_pure.mpr ⟨rfl, rfl⟩

/-- What is put in the place of something stands there and changes no other place. -/
theorem files_of_put {name : String} {bytes : ByteArray} {u : Unit}
    (done : Succeeds (put name (.file bytes)) f u f') :
    f'.files = Assoc.insert name (.file bytes) f.files := by
  obtain ⟨e, m, found, changed⟩ := succeeds_bind.mp done
  obtain ⟨_, _, rfl⟩ := succeeds_find.mp found
  split at changed
  · exact (not_succeeds_throw changed).elim
  · rw [succeeds_modify.mp changed]

/-- A save that succeeds leaves its text in the file of the user. All whole numbers of the store
can be written, and the file can have its name. -/
theorem of_save {s : Store} {now : Int} {text : String} (saved : Succeeds (save s now) f text f') :
    s.held.all (·.2.isWritable) ∧ Short (fileName s.user.id) ∧
      f'.files = Assoc.insert (fileName s.user.id) (.file (snapshotText s now).toUTF8) f.files := by
  have written {g : SaveFolder} {text : String} (saved : Succeeds (do
      put (fileName s.user.id) (.file (snapshotText s now).toUTF8)
      tell (.saved s.user.id)
      return snapshotText s now) g text f') :
      f'.files = Assoc.insert (fileName s.user.id) (.file (snapshotText s now).toUTF8) g.files := by
    obtain ⟨_, m, placed, behind⟩ := succeeds_bind.mp saved
    obtain ⟨_, n, told, last⟩ := succeeds_bind.mp behind
    obtain ⟨_, rfl⟩ := succeeds_pure.mp last
    have same := files_of_put placed
    rw [succeeds_modify.mp told]
    exact same
  unfold save at saved
  dsimp only at saved
  split at saved
  · obtain ⟨_, _, thrown, _⟩ := succeeds_bind.mp saved
    exact (not_succeeds_throw thrown).elim
  · rename_i writable
    refine ⟨by simpa using writable, ?_⟩
    obtain ⟨g, m, got, rest⟩ := succeeds_bind.mp saved
    obtain ⟨rfl, rfl⟩ := succeeds_get.mp got
    split at rest
    · obtain ⟨_, _, _, thrown⟩ := succeeds_bind.mp rest
      exact (not_succeeds_throw thrown).elim
    · obtain ⟨_, _, _, thrown⟩ := succeeds_bind.mp rest
      exact (not_succeeds_throw thrown).elim
    · rename_i place
      exact ⟨(place_eq_some_iff.mp place).1, written rest⟩
    · rename_i place
      exact ⟨(place_eq_some_iff.mp place).1, written rest⟩

theorem files_of_save {s : Store} {now : Int} {text : String}
    (saved : Succeeds (save s now) f text f') :
    f'.files = Assoc.insert (fileName s.user.id) (.file (snapshotText s now).toUTF8) f.files :=
  (of_save saved).2.2

/-- A deletion that succeeds takes the file of the user away, if there is one. -/
theorem files_of_delete {user : String} {there : Bool}
    (deleted : Succeeds (delete user) f there f') :
    (f.standing (fileName user) = .nothing ∧ f' = f) ∨
      f'.files = Assoc.erase (fileName user) f.files := by
  obtain ⟨e, m, found, rest⟩ := succeeds_bind.mp deleted
  obtain ⟨_, here, rfl⟩ := succeeds_find.mp found
  split at rest
  · obtain ⟨_, rfl⟩ := succeeds_pure.mp rest
    exact .inl ⟨here.symm, rfl⟩
  · exact (not_succeeds_throw rest).elim
  · obtain ⟨_, n, changed, last⟩ := succeeds_bind.mp rest
    obtain ⟨_, rfl⟩ := succeeds_pure.mp last
    rw [succeeds_modify.mp changed]
    exact .inr rfl

/-- Whether an action succeeds in a folder. -/
def Works (x : Action α) (f : SaveFolder) : Prop := ∃ a f', Succeeds x f a f'

theorem works_bind {x : Action α} {k : α → Action β} {a : α} {m : SaveFolder}
    (first : Succeeds x f a m) (later : Works (k a) m) : Works (x >>= k) f := by
  obtain ⟨b, f', done⟩ := later
  exact ⟨b, f', succeeds_bind.mpr ⟨a, m, first, done⟩⟩

theorem works_pure (a : α) : Works (pure a) f := ⟨a, f, succeeds_pure.mpr ⟨rfl, rfl⟩⟩

theorem works_modify (change : SaveFolder → SaveFolder) : Works (modify change) f :=
  ⟨(), change f, succeeds_modify.mpr rfl⟩

theorem works_put {name : String} {bytes : ByteArray} (short : Short name)
    (free : f.standing name ≠ .folder) : Works (put name (.file bytes)) f := by
  refine works_bind (succeeds_find.mpr ⟨short, rfl, rfl⟩) ?_
  generalize f.standing name = e at free
  cases e with
  | nothing => exact works_modify _
  | folder => exact absurd rfl free
  | file => exact works_modify _

/-- A store is saved if its numbers can be written and no folder is in the way. -/
theorem works_save {s : Store} (now : Int) (writable : s.held.all (·.2.isWritable))
    (short : Short (fileName s.user.id)) (free : f.standing (fileName s.user.id) ≠ .folder) :
    Works (save s now) f := by
  have written : Works (do
      put (fileName s.user.id) (.file (snapshotText s now).toUTF8)
      tell (.saved s.user.id)
      return snapshotText s now) f := by
    obtain ⟨_, _, placed⟩ := works_put short free
    exact works_bind placed (works_bind ((succeeds_modify (u := ())).mpr rfl) (works_pure _))
  have here : f.place? (fileName s.user.id) = some (f.standing (fileName s.user.id)) :=
    place_eq_some_iff.mpr ⟨short, rfl⟩
  unfold save
  dsimp only
  rw [if_neg (by simpa using writable)]
  refine works_bind (succeeds_get.mpr ⟨rfl, rfl⟩) ?_
  rw [here]
  generalize f.standing (fileName s.user.id) = entry at free
  cases entry with
  | nothing => exact written
  | folder => exact absurd rfl free
  | file bytes => exact written

theorem works_delete {user : String} (short : Short (fileName user))
    (free : f.standing (fileName user) ≠ .folder) : Works (delete user) f := by
  refine works_bind (succeeds_find.mpr ⟨short, rfl, rfl⟩) ?_
  generalize f.standing (fileName user) = e at free
  cases e with
  | nothing => exact works_pure _
  | folder => exact absurd rfl free
  | file bytes => exact works_bind ((succeeds_modify (u := ())).mpr rfl) (works_pure _)

/-- What is loaded for a user is read from what stands in the file of the user. -/
theorem load_eq {user : String} {verified : Bool} (short : Short (fileName user)) :
    (load user verified f).1 =
      (readEntry user verified (f.standing (fileName user))).mapError .error := by
  have found : Succeeds (entry user) f (f.standing (fileName user)) f :=
    succeeds_find.mpr ⟨short, rfl, rfl⟩
  rw [load, apply_bind found]
  cases readEntry user verified (f.standing (fileName user)) with
  | error e => rfl
  | ok given =>
    cases given with
    | none => rfl
    | some store => rfl

/-! Saves and deletions -/

/-- What is done to the saves in a folder: a store is saved at some time, or the save of a user is
deleted. -/
inductive Operation where
  | save (s : Store) (now : Int)
  | delete (user : String)

namespace Operation

/-- Whose save an operation is about. -/
def user : Operation → String
  | save s _ => s.user.id
  | delete user => user

/-- What an operation leaves in the file of its user. -/
def left : Operation → Entry
  | save s now => .file (snapshotText s now).toUTF8
  | delete _ => .nothing

/-- Whether an operation succeeds. -/
def Done (f : SaveFolder) (op : Operation) (f' : SaveFolder) : Prop :=
  match op with
  | save s now => ∃ text, Succeeds (SaveFolder.save s now) f text f'
  | delete user => ∃ there, Succeeds (SaveFolder.delete user) f there f'

/-- Whether operations succeed one after the other. -/
def AllDone (f : SaveFolder) : List Operation → SaveFolder → Prop
  | [], f' => f' = f
  | op :: rest, f' => ∃ m, Done f op m ∧ AllDone m rest f'

/-- What operations leave under a name where something stands at first: what the last of those whose
user has that file has left. -/
def leftBy (name : String) (start : Entry) (ops : List Operation) : Entry :=
  ops.foldl (fun e op => if fileName op.user = name then op.left else e) start

/-- One operation changes the file of its user only. -/
theorem standing_of_done {op : Operation} (distinct : (Assoc.keys f.files).Nodup)
    (done : Done f op f') : (Assoc.keys f'.files).Nodup ∧
      ∀ name, f'.standing name = if fileName op.user = name then op.left else f.standing name := by
  cases op with
  | save s now =>
    obtain ⟨text, saved⟩ := done
    rw [files_of_save saved]
    refine ⟨Assoc.keys_nodup_insert distinct _ _, fun name => ?_⟩
    rw [standing, files_of_save saved]
    split
    · rename_i same
      rw [← same]
      exact congrArg (Option.getD · Entry.nothing) (Assoc.get?_insert_self _ _ _)
    · rename_i other
      exact congrArg (Option.getD · Entry.nothing) (Assoc.get?_insert_of_ne (Ne.symm other) _ _)
  | delete user =>
    obtain ⟨there, deleted⟩ := done
    -- a file that is not there is not deleted, and then nothing changes
    rcases files_of_delete deleted with ⟨none, rfl⟩ | files
    · refine ⟨distinct, fun name => ?_⟩
      split
      · rename_i same
        rw [← same]
        exact none
      · rfl
    · rw [files]
      constructor
      · rw [Assoc.erase_eq_filter distinct]
        exact Assoc.keys_nodup_filter distinct _
      · intro name
        rw [standing, files, Assoc.get?_erase distinct]
        split
        · rename_i same
          rw [if_pos (show fileName (Operation.delete user).user = name from same)]
          rfl
        · rename_i other
          rw [if_neg (show ¬fileName (Operation.delete user).user = name from other)]
          rfl

/-- Operations leave under each name what the last of them on that file has left. -/
theorem standing_of_allDone {ops : List Operation} (distinct : (Assoc.keys f.files).Nodup)
    (done : AllDone f ops f') (name : String) :
    f'.standing name = leftBy name (f.standing name) ops := by
  induction ops generalizing f with
  | nil =>
    cases done
    rfl
  | cons op rest ih =>
    obtain ⟨m, first, later⟩ := done
    obtain ⟨still, standing⟩ := standing_of_done distinct first
    rw [ih still later, standing name]
    rfl

/-- Whether an operation can be done where no folder is in the way. -/
def Fits : Operation → Prop
  | save s _ => Short (fileName s.user.id) ∧ s.held.all (·.2.isWritable)
  | delete user => Short (fileName user)

theorem exists_allDone {ops : List Operation} (distinct : (Assoc.keys f.files).Nodup)
    (free : ∀ name, f.standing name ≠ .folder) (fit : ∀ op ∈ ops, op.Fits) :
    ∃ f', AllDone f ops f' := by
  induction ops generalizing f with
  | nil => exact ⟨f, rfl⟩
  | cons op rest ih =>
    have works : ∃ m, Done f op m := by
      have here := fit op List.mem_cons_self
      cases op with
      | save s now =>
        obtain ⟨text, m, saved⟩ := works_save now here.2 here.1 (free _)
        exact ⟨m, text, saved⟩
      | delete user =>
        obtain ⟨there, m, deleted⟩ := works_delete here (free _)
        exact ⟨m, there, deleted⟩
    obtain ⟨m, done⟩ := works
    obtain ⟨still, standing⟩ := standing_of_done distinct done
    have open_ : ∀ name, m.standing name ≠ .folder := by
      intro name
      rw [standing name]
      split
      · cases op <;> simp [left]
      · exact free name
    obtain ⟨f', later⟩ := ih still open_ fun other member =>
      fit other (List.mem_cons_of_mem op member)
    exact ⟨f', m, done, later⟩

/-- What stands under a name is what the last operation on that file has left. -/
theorem leftBy_eq (name : String) (start : Entry) (ops : List Operation) :
    leftBy name start ops =
      ((ops.filter (fileName ·.user = name)).getLast?.map left).getD start := by
  -- from the end, as the last operation on the file decides what stands in it
  induction ops using List.reverseRecOn with
  | nil => rfl
  | append_singleton rest op ih =>
    unfold leftBy at ih ⊢
    rw [List.foldl_append, ih, List.filter_append, List.foldl_cons, List.foldl_nil]
    by_cases here : fileName op.user = name
    · simp [here]
    · simp [here]

/-- All whole numbers of the stores that are saved can be written. -/
theorem isWritable_of_allDone {ops : List Operation} (done : AllDone f ops f') {s : Store}
    {now : Int} (member : .save s now ∈ ops) : s.held.all (·.2.isWritable) := by
  induction ops generalizing f with
  | nil => cases member
  | cons op rest ih =>
    obtain ⟨m, first, later⟩ := done
    rcases List.mem_cons.mp member with rfl | inside
    · obtain ⟨text, saved⟩ := first
      exact (of_save saved).1
    · exact ih later inside

end Operation
end SaveFolder
end Parley
