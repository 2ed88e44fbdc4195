import Parley.Proofs.Save.RoundTrip

/-!
What is loaded after any number of saves and deletions: the store that was saved last in the file of
the user. Users whose identifiers give the same name share that file.
-/
namespace Parley.SaveFolder

variable {f f' : SaveFolder} {user : String} {verified : Bool}

/-- Whether what is loaded for a user is the save of a store, or nothing. The variables may stand in
another order, and null stands for each number that JSON does not know. -/
def Loads (user : String) (verified : Bool) (f : SaveFolder) : Option Store → Prop
  | none => (load user verified f).1 = .ok none
  | some s => ∃ t, (load user verified f).1 = .ok (some t) ∧ t.user = s.user ∧
      t.held.Perm s.withoutNonFinite.held ∧ (s.Sound → t.held.Perm s.held)

theorem loads_none (short : Short (fileName user)) (here : f.standing (fileName user) = .nothing) :
    Loads user verified f none := by
  rw [Loads, load_eq short, here]
  rfl

/-- The text of a saved store is loaded as the store. -/
theorem loads_of_snapshotText {s : Store} (proper : s.Proper) {now : Int}
    (writable : s.held.all (·.2.isWritable)) (short : Short (fileName user))
    (here : f.standing (fileName user) = .file (snapshotText s now).toUTF8) :
    Loads user verified f (some s) := by
  have sound := Store.sound_withoutNonFinite proper
  have written : s.withoutNonFinite.held.all (·.2.isWritable) := by
    refine List.all_eq_true.mpr fun entry member => ?_
    obtain ⟨before, inside, rfl⟩ := List.mem_map.mp member
    obtain ⟨value, updated⟩ :=
      Bool.and_eq_true_iff.mp (List.all_eq_true.mp writable before inside)
    exact Bool.and_eq_true_iff.mpr ⟨Value.isWritable_withoutNonFinite value, updated⟩
  have text : snapshotText s.withoutNonFinite now = snapshotText s now := by
    rw [snapshotText, Snapshot.ofStore, Snapshot.contents_withoutNonFinite proper]
    rfl
  have perm := Snapshot.held_perm sound
  refine ⟨.ofVariables s.user (Snapshot.inOrder s.withoutNonFinite), ?_, rfl, perm, fun same => ?_⟩
  · rw [load_eq short, here, readEntry, ← text, readBytes_snapshotText sound now written]
    rfl
  · rwa [Store.withoutNonFinite_of_sound same] at perm ⊢

namespace Operation

/-- The store that an operation saves, if it is not a deletion. -/
def stored? : Operation → Option Store
  | save s _ => some s
  | delete _ => none

/-- The store that the last operation on the saves of some users has saved, if that is not a
deletion. -/
def lastSaved (isOne : String → Bool) (ops : List Operation) : Option Store :=
  (ops.filter (isOne ·.user)).getLast?.bind stored?

/-- After any saves and deletions that succeed in a new folder, what is loaded for a user is the
store that was saved last in the file of the user, if it has not been deleted since. That is the
store of the user, if no other user has the same file. -/
theorem loads_last_saved {ops : List Operation} (done : AllDone .empty ops f')
    (short : Short (fileName user)) (proper : ∀ s now, .save s now ∈ ops → s.Proper) :
    Loads user verified f' (lastSaved (fileName · = fileName user) ops) ∧
      ((∀ op ∈ ops, fileName op.user = fileName user → op.user = user) →
        Loads user verified f' (lastSaved (· = user) ops)) := by
  have distinct : (Assoc.keys SaveFolder.empty.files).Nodup := .nil
  have here : f'.standing (fileName user) =
      ((ops.filter (fileName ·.user = fileName user)).getLast?.map left).getD .nothing := by
    rw [standing_of_allDone distinct done, leftBy_eq]
    rfl
  have loads : Loads user verified f' (lastSaved (fileName · = fileName user) ops) := by
    unfold lastSaved
    generalize last : (ops.filter (fileName ·.user = fileName user)).getLast? = found at here
    cases found with
    | none => exact loads_none short here
    | some op =>
      have member : op ∈ ops := List.mem_of_mem_filter (List.mem_of_getLast? last)
      cases op with
      | delete other => exact loads_none short here
      | save s now =>
        have writable := isWritable_of_allDone done member
        exact loads_of_snapshotText (proper s now member) writable short here
  refine ⟨loads, fun alone => ?_⟩
  have own : ops.filter (fileName ·.user = fileName user) = ops.filter (·.user = user) := by
    refine List.filter_congr fun op member => decide_eq_decide.mpr ⟨alone op member, ?_⟩
    rintro rfl
    rfl
  unfold lastSaved at loads ⊢
  rwa [own] at loads

/-- One of two users has deleted the save, and the other has a number that JSON does not know. -/
theorem loads_last_saved_of_two :
    let bo : Store := .ofVariables ⟨"bo", "UTC"⟩
      [⟨"score", .int 3, 10, "UTC"⟩, ⟨"share", .float .nan, 20, "UTC"⟩]
    ∃ f', AllDone .empty [.save (.ofVariables ⟨"ann", "UTC"⟩ []) 1, .save bo 2, .delete "ann"] f' ∧
      (load "ann" true f').1 = .ok none ∧
      ∃ t, (load "bo" true f').1 = .ok (some t) ∧ t.user = ⟨"bo", "UTC"⟩ ∧
        t.held.Perm [("score", ⟨"score", .int 3, 10, "UTC"⟩),
          ("share", ⟨"share", .null, 20, "UTC"⟩)] := by
  intro bo
  let ann : Store := .ofVariables ⟨"ann", "UTC"⟩ []
  have first : Short (fileName "ann") := by decide +kernel
  have second : Short (fileName "bo") := by decide +kernel
  have apart : fileName "ann" ≠ fileName "bo" := by decide +kernel
  have fit : ∀ op ∈ [Operation.save ann 1, .save bo 2, .delete "ann"], op.Fits := by
    simp only [List.mem_cons, List.not_mem_nil, or_false, forall_eq_or_imp, forall_eq]
    exact ⟨⟨first, rfl⟩, ⟨second, by decide +kernel⟩, first⟩
  obtain ⟨f', done⟩ := exists_allDone (f := .empty) .nil
    (by simp [standing, SaveFolder.empty, Assoc.get?]) fit
  have proper : ∀ s now, Operation.save s now ∈ [Operation.save ann 1, .save bo 2, .delete "ann"] →
      s.Proper := by
    intro s now member
    simp only [List.mem_cons, Operation.save.injEq, List.not_mem_nil, or_false, reduceCtorEq]
      at member
    rcases member with ⟨rfl, -⟩ | ⟨rfl, -⟩
    · exact Store.Proper.ofVariables isZoneName_utc (by simp)
    · exact Store.Proper.ofVariables isZoneName_utc (by simp [Value.Keyed])
  refine ⟨f', done, ?_, ?_⟩
  · refine (loads_last_saved done first proper).2 ?_
    simp [Operation.user, Store.ofVariables, ann, bo, apart.symm]
  · obtain ⟨t, found, same, held, -⟩ := (@loads_last_saved f' "bo" true _ done second proper).2 (by
      simp [Operation.user, Store.ofVariables, ann, bo, apart])
    exact ⟨t, found, same, held⟩

/-- A user whose file has been written by another finds the save of the other. -/
theorem load_of_shared_file {s : Store} (proper : s.Proper) {now : Int} {text : String}
    (saved : Succeeds (SaveFolder.save s now) f text f') (short : Short (fileName user))
    (shared : fileName s.user.id = fileName user) : Loads user verified f' (some s) := by
  have here : f'.standing (fileName user) = .file (snapshotText s now).toUTF8 := by
    rw [standing, files_of_save saved, ← shared, Assoc.get?_insert_self]
    rfl
  exact loads_of_snapshotText proper (of_save saved).1 short here

/-- Of two users one of whom has a slash where the other has an underscore, the one who has never
saved anything finds the save of the other. -/
theorem load_finds_save_of_other : ∃ ops f' t, AllDone .empty ops f' ∧
    (∀ op ∈ ops, op.user ≠ "a_b") ∧ (load "a_b" true f').1 = .ok (some t) ∧ t.user.id = "a/b" := by
  let s : Store := .ofVariables ⟨"a/b", "UTC"⟩ []
  have short : Short (fileName "a/b") := by decide +kernel
  obtain ⟨text, f', saved⟩ := works_save 0 (f := .empty) (s := s) rfl short
    (by simp [standing, SaveFolder.empty, Assoc.get?])
  have proper : s.Proper := Store.Proper.ofVariables isZoneName_utc (by simp)
  obtain ⟨t, found, same, -⟩ := @load_of_shared_file .empty f' "a_b" true s proper 0 text saved
    (by decide +kernel) (by decide +kernel)
  refine ⟨[.save s 0], f', t, ⟨f', ⟨text, saved⟩, rfl⟩, ?_, found, congrArg User.id same⟩
  intro op member
  cases List.mem_singleton.mp member
  decide

end Operation
end Parley.SaveFolder
