import Mathlib.Data.List.Induction
import Mathlib.Data.List.Perm.Basic
import Parley.Body.Parser
import Parley.Proofs.Template.Atoms

/-!
The bodies in the blocks of a body: the clauses of all its commands, in the order of the script.
What can be said of the replies at every depth is said of a body's own and, by induction, of those
in its blocks.
-/
namespace Parley

/-- The bodies in the clauses of a command. -/
def Command.bodies : Command → List Body
  | .choice clauses otherwise => clauses.map (·.body) ++ otherwise.toList
  | .random clauses => clauses.map (·.body)
  | .action _ | .set _ | .input _ => []

def bodiesOfAtom : Atom ⊕ Command → List Body
  | .inl _ => []
  | .inr c => c.bodies

theorem flatMap_dropWhile {α β : Type} {p : α → Bool} {f : α → List β} (none : ∀ a, p a → f a = [])
    (xs : List α) : (xs.dropWhile p).flatMap f = xs.flatMap f := by
  induction xs with
  | nil => rfl
  | cons x rest ih =>
    by_cases dropped : p x
    · rw [List.dropWhile_cons_of_pos dropped, ih, List.flatMap_cons, none x dropped,
        List.nil_append]
    · rw [List.dropWhile_cons_of_neg dropped]

theorem flatMap_rdropWhile {α β : Type} {p : α → Bool} {f : α → List β} (none : ∀ a, p a → f a = [])
    (xs : List α) : (xs.rdropWhile p).flatMap f = xs.flatMap f := by
  induction xs using List.reverseRecOn with
  | nil => rfl
  | append_singleton rest x ih =>
    by_cases dropped : p x
    · rw [List.rdropWhile_concat_pos _ _ _ dropped, ih, List.flatMap_append, List.flatMap_singleton,
        none x dropped, List.append_nil]
    · rw [List.rdropWhile_concat_neg _ _ _ dropped]

namespace Body

/-- The bodies in the blocks of a body. -/
def blocks (b : Body) : List Body := (Segment.commands b.segments).flatMap Command.bodies

theorem blocks_eq (b : Body) : b.blocks = (Segment.atoms b.segments).flatMap bodiesOfAtom := by
  obtain ⟨segments, replies⟩ := b
  show (Segment.commands segments).flatMap Command.bodies = _
  induction segments with
  | nil => rfl
  | cons s rest ih =>
    cases s with
    | text t =>
      have none : (t.atoms.map (Sum.inl : Atom → Atom ⊕ Command)).flatMap bodiesOfAtom = [] := by
        simp [bodiesOfAtom]
      show (Segment.commands rest).flatMap Command.bodies = _
      rw [Segment.atoms, List.flatMap_append, none, ih]
      rfl
    | command c =>
      show (c :: Segment.commands rest).flatMap Command.bodies = _
      rw [Segment.atoms, List.flatMap_cons, ih]
      rfl

theorem blocks_addText (b : Body) (t : Template) : (b.addText t).blocks = b.blocks := by
  rw [blocks_eq, blocks_eq, addText, Segment.atoms_pushText]
  simp [bodiesOfAtom]

theorem blocks_addSegment (b : Body) (s : Segment Command) :
    (b.addSegment s).blocks = b.blocks ++ (Segment.atoms [s]).flatMap bodiesOfAtom := by
  rw [blocks_eq, blocks_eq, addSegment, Segment.atoms_push, List.flatMap_append]

theorem blocks_addCommand (b : Body) (c : Command) :
    (b.addCommand c).blocks = b.blocks ++ c.bodies := by
  rw [addCommand, blocks_addSegment]
  simp [Segment.atoms, bodiesOfAtom]

theorem blocks_addReply (b : Body) (r : Reply) : (b.addReply r).blocks = b.blocks := rfl

theorem blocks_trim (b : Body) : b.trim.blocks = b.blocks := by
  have none : ∀ a : Atom ⊕ Command, Segment.isBlankAtom a → bodiesOfAtom a = [] := by
    intro a blank
    cases a with
    | inl => rfl
    | inr => cases blank
  rw [blocks_eq, blocks_eq, trim, Segment.atoms_trim, flatMap_rdropWhile none,
    flatMap_dropWhile none]

/-! Replies -/

theorem repliesOfClauses_eq (clauses : List IfClause) :
    repliesOfClauses clauses = (clauses.map (·.body)).flatMap nested := by
  induction clauses with
  | nil => rfl
  | cons clause rest ih =>
    obtain ⟨condition, body⟩ := clause
    rw [repliesOfClauses, ih, List.map_cons, List.flatMap_cons]

theorem repliesOfWeighted_eq (clauses : List RandomClause) :
    repliesOfWeighted clauses = (clauses.map (·.body)).flatMap nested := by
  induction clauses with
  | nil => rfl
  | cons clause rest ih =>
    obtain ⟨weight, body⟩ := clause
    rw [repliesOfWeighted, ih, List.map_cons, List.flatMap_cons]

theorem replies_eq (c : Command) : c.replies = c.bodies.flatMap nested := by
  cases c with
  | choice clauses otherwise =>
    rw [Command.replies, Command.bodies, List.flatMap_append, repliesOfClauses_eq]
    cases otherwise <;> simp [repliesOfOptional]
  | random clauses => exact repliesOfWeighted_eq clauses
  | _ => rfl

theorem repliesOfSegments_eq (segments : List (Segment Command)) :
    repliesOfSegments segments =
      ((Segment.commands segments).flatMap Command.bodies).flatMap nested := by
  induction segments with
  | nil => rfl
  | cons s rest ih =>
    cases s with
    | text t => exact ih
    | command c =>
      show c.replies ++ repliesOfSegments rest = ((c :: Segment.commands rest).flatMap _).flatMap _
      rw [replies_eq, ih, List.flatMap_cons, List.flatMap_append]

/-- The replies at every depth are a body's own and those in its blocks. -/
theorem nested_eq (b : Body) : b.nested = b.replies ++ b.blocks.flatMap nested := by
  obtain ⟨segments, replies⟩ := b
  rw [nested, repliesOfSegments_eq]
  rfl

/-! Sizes -/

theorem sizeOf_lt_of_mem_bodies {c : Command} {inner : Body} (member : inner ∈ c.bodies) :
    sizeOf inner < sizeOf c := by
  have inIf {clauses : List IfClause} (member : inner ∈ clauses.map (·.body)) :
      sizeOf inner < sizeOf clauses := by
    obtain ⟨clause, inside, rfl⟩ := List.mem_map.mp member
    have smaller := List.sizeOf_lt_of_mem inside
    obtain ⟨condition, body⟩ := clause
    simp only [IfClause.mk.sizeOf_spec] at smaller
    dsimp only
    omega
  have inRandom {clauses : List RandomClause} (member : inner ∈ clauses.map (·.body)) :
      sizeOf inner < sizeOf clauses := by
    obtain ⟨clause, inside, rfl⟩ := List.mem_map.mp member
    have smaller := List.sizeOf_lt_of_mem inside
    obtain ⟨weight, body⟩ := clause
    simp only [RandomClause.mk.sizeOf_spec] at smaller
    dsimp only
    omega
  cases c with
  | choice clauses otherwise =>
    rw [Command.choice.sizeOf_spec]
    rcases List.mem_append.mp member with inside | last
    · have smaller := inIf inside
      omega
    · obtain rfl := Option.mem_toList.mp last
      simp only [Option.some.sizeOf_spec]
      omega
  | random clauses =>
    rw [Command.random.sizeOf_spec]
    have smaller := inRandom member
    omega
  | _ => cases member

theorem sizeOf_lt_of_mem_blocks {b inner : Body} (member : inner ∈ b.blocks) :
    sizeOf inner < sizeOf b := by
  obtain ⟨segments, replies⟩ := b
  obtain ⟨c, command, inside⟩ := List.mem_flatMap.mp member
  obtain ⟨s, segment, same⟩ := List.mem_filterMap.mp command
  have one := sizeOf_lt_of_mem_bodies inside
  have two := List.sizeOf_lt_of_mem segment
  rw [Body.mk.sizeOf_spec]
  cases s with
  | text t => cases same
  | command d =>
    cases same
    rw [Segment.command.sizeOf_spec] at two
    dsimp only at two
    omega

/-- What holds of a body as soon as it holds of all bodies in its blocks holds of every body. -/
theorem inside_out {p : Body → Prop} (step : ∀ b, (∀ inner ∈ b.blocks, p inner) → p b)
    (b : Body) : p b :=
  step b fun inner member =>
    have := sizeOf_lt_of_mem_blocks member
    inside_out step inner
termination_by sizeOf b

/-! Offers -/

/-- The replies at every depth in the order in which they are run: those in the blocks of a body in
front of its own. -/
def offers (b : Body) : List Reply :=
  b.blocks.attach.flatMap (fun inner => offers inner.1) ++ b.replies
termination_by sizeOf b
decreasing_by exact sizeOf_lt_of_mem_blocks inner.2

theorem offers_eq (b : Body) : b.offers = b.blocks.flatMap offers ++ b.replies := by
  rw [offers, List.flatMap_subtype fun _ _ => rfl, List.unattach_attach]

theorem offers_empty : empty.offers = [] := by
  rw [offers_eq]
  rfl

theorem offers_addReply (b : Body) (r : Reply) : (b.addReply r).offers = b.offers ++ [r] := by
  rw [offers_eq, offers_eq, blocks_addReply, addReply, List.append_assoc]

theorem nested_perm_offers (b : Body) : b.nested.Perm b.offers := by
  induction b using inside_out with
  | step b ih =>
    rw [nested_eq, offers_eq]
    exact List.perm_append_comm.trans ((List.Perm.flatMap_left _ ih).append_right _)

end Body
end Parley
