import Parley.Proofs.Body.Levels
import Parley.Proofs.Body.Settled

/-!
The pointers that are noted while a body is read. Each is the pointer of a reply of the body, at
some depth, and bodies that are the same have the same replies.
-/
namespace Parley

namespace Body

/-- No reply of the bodies that are being read is given up. -/
theorem offers_of_shifts {dialogue : String} {levels levels' : List Body} {next next' : Nat}
    {opened : Option Enclosed} (shifts : Shifts dialogue next levels opened levels' next') :
    levels.flatMap offers ⊆ levels'.flatMap offers := by
  intro r member
  cases shifts with
  | stays alike => simpa [alike.offers] using member
  | opens alike => simpa [alike.offers, offers_empty] using member
  | @closes front done outer whole b c alike blocks replies =>
    have inside : (outer :: (done ++ [b])).flatMap offers ⊆ whole.offers := by
      rw [List.flatMap_cons, List.flatMap_append, List.flatMap_singleton, offers_eq outer,
        offers_eq whole, blocks, replies, List.flatMap_append, List.flatMap_append,
        List.flatMap_singleton, alike.offers]
      grind
    rw [List.flatMap_append] at member ⊢
    rw [List.flatMap_singleton]
    exact (List.mem_append.mp member).elim (List.mem_append_left _)
      fun within => List.mem_append_right _ (inside within)
  | reply read =>
    rw [List.flatMap_append, List.flatMap_singleton] at member ⊢
    rw [offers_addReply, ← List.append_assoc]
    exact List.mem_append_left _ member

namespace Reading

variable {dialogue : String} {allowed : List String} {s s' : Reading} {item : Item}

/-- Whether the pointers that have been noted are those of replies that are being read. -/
def Noted (s : Reading) : Prop :=
  ∀ use ∈ s.uses, ∃ r ∈ s.levels.flatMap offers, r.pointer = use.pointer

theorem Noted.takes (noted : s.Noted) (taken : Takes dialogue allowed s item s') : s'.Noted := by
  have kept : s.levels.flatMap offers ⊆ s'.levels.flatMap offers :=
    offers_of_shifts (shifts_of_takes taken)
  have old (use : PointerUse) (member : use ∈ s.uses) :
      ∃ r ∈ s'.levels.flatMap offers, r.pointer = use.pointer := by
    obtain ⟨r, inside, same⟩ := noted use member
    exact ⟨r, kept inside, same⟩
  cases taken with
  | text _ =>
    intro use member
    refine old use ?_
    unfold withText at member
    split at member <;> exact member
  | @reply e r use read single =>
    intro other member
    rcases List.mem_append.mp member with earlier | last
    · exact old other earlier
    · obtain ⟨_, _, _, _, _, _, _, _, same, _⟩ := sections_of_replyOf read
      refine ⟨r, ?_, List.mem_singleton.mp last ▸ same⟩
      have here : r ∈ (s.body.addReply r).offers := by
        rw [offers_addReply]
        exact List.mem_append_right _ List.mem_cons_self
      rw [levels, List.flatMap_append, List.flatMap_singleton]
      exact List.mem_append_right _ here
  | _ => exact old

theorem Noted.fold {items : List Item} (noted : s.Noted)
    (run : items.foldlM (step dialogue allowed) s = .ok s') : s'.Noted := by
  induction items generalizing s with
  | nil =>
    cases run
    exact noted
  | cons item rest ih =>
    obtain ⟨m, first, later⟩ := foldlM_cons_eq_ok_iff.mp run
    exact ih (noted.takes (takes_of_step first)) later

end Reading

/-- The pointers that are noted of a body are those of its replies. -/
theorem nested_of_ofTokens {dialogue : String} {allowed : List String} {tokens : List Token}
    {b : Body} {uses : List PointerUse} (read : ofTokens dialogue allowed tokens = .ok (b, uses)) :
    ∀ use ∈ uses, ∃ r ∈ b.nested, r.pointer = use.pointer := by
  obtain ⟨s, run, ended⟩ := bind_eq_ok_iff.mp read
  have start : (Reading.start 1).Noted := by simp [Reading.Noted, Reading.start]
  have noted := start.fold run
  unfold Reading.finish at ended
  split at ended
  · rename_i closed
    cases ended
    intro use member
    obtain ⟨r, inside, same⟩ := noted use member
    rw [Reading.levels, closed, levelsOfFrames, List.nil_append, List.flatMap_singleton,
      ← (alike_trim s.body).offers] at inside
    exact ⟨r, (nested_perm_offers _).mem_iff.mpr inside, same⟩
  · cases ended

end Body

/-! Replies of bodies that are the same -/

mutual

theorem Command.Same.replies {c d : Command} (same : c.Same d) : d.replies = c.replies := by
  match same with
  | .action a => rfl
  | .set s => rfl
  | .choice first second =>
    rw [Command.replies, Command.replies, first.replies, second.replies]
  | .random same => exact same.replies
  | .input i => rfl

theorem ClausesSame.replies {clauses others : List IfClause} (same : ClausesSame clauses others) :
    repliesOfClauses others = repliesOfClauses clauses := by
  match same with
  | .nil => rfl
  | .cons body later => rw [repliesOfClauses, repliesOfClauses, body.nested, later.replies]

theorem WeightedSame.replies {clauses others : List RandomClause}
    (same : WeightedSame clauses others) :
    repliesOfWeighted others = repliesOfWeighted clauses := by
  match same with
  | .nil => rfl
  | .cons weight body later =>
    rw [repliesOfWeighted, repliesOfWeighted, body.nested, later.replies]

theorem OptionSame.replies {o p : Option Body} (same : OptionSame o p) :
    repliesOfOptional p = repliesOfOptional o := by
  match same with
  | .none => rfl
  | .some body => exact body.nested

theorem SegmentsSame.replies {segments others : List (Segment Command)}
    (same : SegmentsSame segments others) :
    repliesOfSegments others = repliesOfSegments segments := by
  match same with
  | .nil => rfl
  | .text t later => exact later.replies
  | .command first later =>
    rw [repliesOfSegments, repliesOfSegments, first.replies, later.replies]

theorem Body.Same.nested {b c : Body} (same : b.Same c) : c.nested = b.nested := by
  match same with
  | .intro inner => rw [Body.nested, Body.nested, inner.replies]

end

theorem Body.Same.isEmpty {b c : Body} (same : b.Same c) : c.isEmpty = b.isEmpty := by
  obtain ⟨inner⟩ := same
  cases inner <;> rfl

end Parley
