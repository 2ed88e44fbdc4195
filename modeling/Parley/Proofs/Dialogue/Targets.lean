import Parley.Proofs.Dialogue.Blocks

/-!
Where the replies of a dialogue lead. In a dialogue that can be read every one of them leads to a
node that is there, to the end, or to another dialogue that is listed among the references.
-/
namespace Parley

theorem mem_eraseReps {α : Type} [BEq α] [LawfulBEq α] {a : α} {xs : List α} :
    a ∈ xs.eraseReps ↔ a ∈ xs := by
  have loop (ys : List α) : ∀ first done,
      a ∈ List.eraseRepsBy.loop (· == ·) first ys done ↔ a ∈ done ∨ a = first ∨ a ∈ ys := by
    induction ys with
    | nil =>
      intro first done
      simp [List.eraseRepsBy.loop, or_comm]
    | cons y rest ih =>
      intro first done
      unfold List.eraseRepsBy.loop
      split
      · rename_i same
        rw [ih, eq_of_beq same]
        simp
      · rw [ih]
        simp only [List.mem_cons]
        grind
  cases xs with
  | nil => simp [List.eraseReps, List.eraseRepsBy]
  | cons x rest => simp [List.eraseReps, List.eraseRepsBy, loop]

theorem mem_sortedNames {name : String} {names : List String} :
    name ∈ sortedNames names ↔ name ∈ names := by
  rw [sortedNames, mem_eraseReps, List.mem_mergeSort]

namespace Body

/-- Bodies whose replies lead to some pointers only. -/
def Law.leading (pointers : List Pointer) : Law where
  reply r := r.pointer ∈ pointers

end Body

section Leading

variable {law : Body.Law} {targets : List Pointer}

mutual

theorem Command.meets_leading (c : Command) (meets : c.Meets law) (covered : c.pointers ⊆ targets) :
    c.Meets (Body.Law.leading targets) := by
  cases c with
  | choice clauses otherwise =>
    have parts := List.append_subset.mp covered
    exact ⟨meets.1, clausesMeet_leading clauses meets.2.1 parts.1,
      optionMeets_leading otherwise meets.2.2 parts.2⟩
  | random clauses => exact ⟨meets.1, weightedMeet_leading clauses meets.2 covered⟩
  | _ => trivial

theorem clausesMeet_leading (clauses : List IfClause) (meet : ClausesMeet law clauses)
    (covered : pointersOfClauses clauses ⊆ targets) :
    ClausesMeet (Body.Law.leading targets) clauses := by
  match clauses with
  | [] => trivial
  | ⟨condition, body⟩ :: rest =>
    have parts := List.append_subset.mp covered
    exact ⟨trivial, body.meets_leading meet.2.1 parts.1,
      clausesMeet_leading rest meet.2.2 parts.2⟩

theorem weightedMeet_leading (clauses : List RandomClause) (meet : WeightedMeet law clauses)
    (covered : pointersOfWeighted clauses ⊆ targets) :
    WeightedMeet (Body.Law.leading targets) clauses := by
  match clauses with
  | [] => trivial
  | ⟨weight, body⟩ :: rest =>
    have parts := List.append_subset.mp covered
    exact ⟨trivial, body.meets_leading meet.2.1 parts.1,
      weightedMeet_leading rest meet.2.2 parts.2⟩

theorem optionMeets_leading (o : Option Body) (meets : OptionMeets law o)
    (covered : pointersOfOptional o ⊆ targets) : OptionMeets (Body.Law.leading targets) o := by
  match o with
  | none => trivial
  | some body => exact body.meets_leading meets covered

theorem segmentsMeet_leading (segments : List (Segment Command))
    (meet : SegmentsMeet law segments) (covered : pointersOfSegments segments ⊆ targets) :
    SegmentsMeet (Body.Law.leading targets) segments := by
  match segments with
  | [] => trivial
  | .text t :: rest => exact ⟨trivial, segmentsMeet_leading rest meet.2 covered⟩
  | .command c :: rest =>
    have parts := List.append_subset.mp covered
    exact ⟨c.meets_leading meet.1 parts.1, segmentsMeet_leading rest meet.2 parts.2⟩

/-- The replies of a body, at every depth, lead to the pointers that are listed of it. -/
theorem Body.meets_leading (b : Body) (meets : b.Meets law) (covered : b.allPointers ⊆ targets) :
    b.Meets (Body.Law.leading targets) := by
  match b with
  | ⟨segments, replies⟩ =>
    have parts := List.append_subset.mp covered
    exact ⟨trivial, segmentsMeet_leading segments meets.2.1 parts.1,
      fun r member => parts.2 (List.mem_map_of_mem member)⟩

end

end Leading

namespace Body

theorem leading_kept (dialogue : String) (allowed : List String) (uses : List PointerUse) :
    (Law.leading (uses.map (·.pointer))).Kept dialogue allowed (fun _ => True) uses where
  reply id e r use _ read counts := by
    obtain ⟨_, _, _, _, _, _, _, _, same, _⟩ := sections_of_replyOf read
    exact List.mem_map.mpr ⟨use, counts, same.symm⟩
  text _ _ := trivial
  joined _ _ _ _ := trivial
  trimStart _ _ := trivial
  trimEnd _ _ := trivial
  action _ _ _ _ _ _ := trivial
  set _ _ _ _ := trivial
  condition _ _ _ _ _ := trivial
  weight _ _ _ _ _ _ := trivial
  input _ _ _ _ _ _ _ := trivial
  draftNil := trivial
  draftText _ _ _ := trivial
  draftCommand _ _ _ := trivial
  draftReply _ _ _ _ := trivial
  whole _ _ := trivial

end Body

namespace Dialogue

/-- The pointers of the nodes that have been read. -/
def Reading.targets (r : Reading) : List Pointer := r.pointers.map (·.use.pointer)

/-- A node that is read has among its pointers those of all its replies. -/
theorem leading_of_nodeOf {dialogue : String} {taken : String → Bool} {b : NodeLines} {n : Node}
    {uses : List PointerUse} (read : nodeOf dialogue taken b = some (.ok (n, uses))) :
    n.body.Meets (Body.Law.leading (uses.map (·.pointer))) := by
  obtain ⟨_, _, _, _, _, _, _, _, _, read, _⟩ := of_nodeOf read
  obtain ⟨tokens, _, formed⟩ := bind_eq_ok_iff.mp read
  exact Body.meets_of_ofTokens (Body.leading_kept _ _ _) (fun _ _ => trivial) formed

theorem targets_subset_step (r : Reading) (b : NodeLines) : r.targets ⊆ (r.step b).targets := by
  unfold Reading.step
  split
  · exact List.Subset.refl _
  · exact List.Subset.refl _
  · simp [Reading.targets]

theorem targets_subset_fold (blocks : List NodeLines) (r : Reading) :
    r.targets ⊆ (blocks.foldl Reading.step r).targets := by
  induction blocks generalizing r with
  | nil => exact List.Subset.refl _
  | cons b rest ih => exact List.Subset.trans (targets_subset_step r b) (ih (r.step b))

/-- What has been collected when a script has been read covers the replies of all its nodes. -/
theorem leading_of_fold {targets : List Pointer} (blocks : List NodeLines) (r : Reading)
    (covered : (blocks.foldl Reading.step r).targets ⊆ targets)
    (sound : ∀ n ∈ r.dialogue.nodes, n.body.Meets (Body.Law.leading targets)) :
    ∀ n ∈ (blocks.foldl Reading.step r).dialogue.nodes,
      n.body.Meets (Body.Law.leading targets) := by
  induction blocks generalizing r with
  | nil => exact sound
  | cons b rest ih =>
    refine ih (r.step b) covered fun n member => ?_
    have later : (r.step b).targets ⊆ targets :=
      List.Subset.trans (targets_subset_fold rest _) covered
    unfold Reading.step at member later
    split at member
    · exact sound n member
    · exact sound n member
    · rename_i node uses read
      rcases List.mem_append.mp member with earlier | last
      · exact sound n earlier
      · rw [List.mem_singleton.mp last]
        have own := leading_of_nodeOf read
        refine Body.meets_of_replies (fun reply leads _ => ?_) own own
        apply later
        simp only [read, Reading.targets, List.map_append, List.map_map]
        exact List.mem_append_right _ leads

/-- Whether a pointer leads somewhere: to the end, to a node, or to a dialogue that is known to be
referred to. -/
def Leads (d : Dialogue) : Pointer → Prop
  | .internal node => Pointer.isEndId node ∨ d.hasNode node
  | .external _ _ dialogue => dialogue ∈ d.references

/-- A script without errors gives what its blocks have given, and nothing in it dangles. -/
theorem eq_of_ofLines {name : String} {lines : List (List Char)} {d : Dialogue}
    (read : ofLines name lines = .ok d) :
    d = ((blocks 1 lines).foldl Reading.step ⟨⟨name, []⟩, [], []⟩).dialogue ∧
      ∀ p ∈ ((blocks 1 lines).foldl Reading.step ⟨⟨name, []⟩, [], []⟩).targets,
        isDangling d p = false := by
  obtain ⟨r, rfl, _, _, _, safe, rfl⟩ := ofLines_eq_ok_iff.mp read
  refine ⟨rfl, fun p member => ?_⟩
  obtain ⟨found, listed, rfl⟩ := List.mem_map.mp member
  exact safe found listed

theorem mem_references {d : Dialogue} {n : Node} (member : n ∈ d.nodes)
    {reference id dialogue : String}
    (listed : .external reference id dialogue ∈ n.body.allPointers) : dialogue ∈ d.references := by
  rw [references, mem_sortedNames]
  exact List.mem_flatMap.mpr ⟨n, member, List.mem_filterMap.mpr ⟨_, listed, rfl⟩⟩

/-- In a dialogue without errors every reply of a node, at every depth, leads somewhere. -/
theorem leads_of_ofLines {name : String} {lines : List (List Char)} {d : Dialogue}
    (read : ofLines name lines = .ok d) {n : Node} (member : n ∈ d.nodes) :
    n.body.Meets { reply := fun r => d.Leads r.pointer } := by
  obtain ⟨same, clean⟩ := eq_of_ofLines read
  have collected := leading_of_fold (blocks 1 lines) ⟨⟨name, []⟩, [], []⟩ (List.Subset.refl _)
    (by simp)
  rw [← same] at collected
  have own : n.body.Meets (Body.Law.leading n.body.allPointers) :=
    n.body.meets_leading (collected n member) (List.Subset.refl _)
  refine Body.meets_of_replies (fun r known listed => ?_) (collected n member) own
  have safe := clean r.pointer known
  have here : r.pointer ∈ n.body.allPointers := listed
  cases target : r.pointer with
  | external reference id dialogue =>
    rw [target] at here
    exact mem_references member here
  | internal id =>
    rw [target] at safe
    simp only [isDangling, Bool.and_eq_false_iff, Bool.not_eq_false'] at safe
    exact safe

end Dialogue
end Parley
