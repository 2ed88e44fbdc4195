import Parley.Proofs.Body.Blocks
import Parley.Proofs.Body.Settled

/-!
The numbers of the replies of a body that is read. They go up by one in the order of the script as
long as no block is opened behind a reply of the same body.
-/
namespace Parley

section Numbers

theorem numbersOfClauses_append (clauses others : List IfClause) :
    numbersOfClauses (clauses ++ others) = numbersOfClauses clauses ++ numbersOfClauses others := by
  induction clauses with
  | nil => rfl
  | cons clause rest ih =>
    obtain ⟨condition, body⟩ := clause
    simp [numbersOfClauses, ih]

theorem numbersOfWeighted_append (clauses others : List RandomClause) :
    numbersOfWeighted (clauses ++ others) =
      numbersOfWeighted clauses ++ numbersOfWeighted others := by
  induction clauses with
  | nil => rfl
  | cons clause rest ih =>
    obtain ⟨weight, body⟩ := clause
    simp [numbersOfWeighted, ih]

def numbersOfAtom : Atom ⊕ Command → List Nat
  | .inl _ => []
  | .inr c => c.numbers

/-- Only the commands among the segments count. -/
theorem numbersOfSegments_eq (segments : List (Segment Command)) :
    numbersOfSegments segments = (Segment.atoms segments).flatMap numbersOfAtom := by
  induction segments with
  | nil => rfl
  | cons s rest ih =>
    cases s with
    | text t =>
      have none : (t.atoms.map (Sum.inl : Atom → Atom ⊕ Command)).flatMap numbersOfAtom = [] := by
        simp [numbersOfAtom]
      rw [numbersOfSegments, Segment.atoms, List.flatMap_append, none, ih]
      rfl
    | command c =>
      rw [numbersOfSegments, Segment.atoms, ih]
      rfl

theorem numbersOfSegments_trim (segments : List (Segment Command)) :
    numbersOfSegments (Segment.trim segments) = numbersOfSegments segments := by
  have none : ∀ a : Atom ⊕ Command, Segment.isBlankAtom a → numbersOfAtom a = [] := by
    intro a blank
    cases a with
    | inl => rfl
    | inr => cases blank
  rw [numbersOfSegments_eq, numbersOfSegments_eq, Segment.atoms_trim, flatMap_rdropWhile none,
    flatMap_dropWhile none]

namespace Body

theorem numbers_trim (b : Body) : b.trim.numbers = b.numbers := by
  obtain ⟨segments, replies⟩ := b
  rw [trim, numbers, numbers, numbersOfSegments_trim]

theorem numbers_addText (b : Body) (t : Template) : (b.addText t).numbers = b.numbers := by
  obtain ⟨segments, replies⟩ := b
  rw [addText, numbers, numbers, numbersOfSegments_eq, numbersOfSegments_eq, Segment.atoms_pushText]
  simp [numbersOfAtom]

/-- A command that is added to a body without replies counts behind all of it. -/
theorem numbers_addCommand {b : Body} (bare : b.replies = []) (c : Command) :
    (b.addCommand c).numbers = b.numbers ++ c.numbers := by
  obtain ⟨segments, replies⟩ := b
  cases bare
  rw [addCommand, addSegment, numbers, numbers, numbersOfSegments_eq, numbersOfSegments_eq,
    Segment.atoms_push]
  simp [Segment.atoms, numbersOfAtom]

theorem numbers_addReply (b : Body) (r : Reply) : (b.addReply r).numbers = b.numbers ++ [r.id] := by
  obtain ⟨segments, replies⟩ := b
  simp [addReply, numbers]

end Body
end Numbers

/-! Reading -/

/-- Whether an item is a command that opens a block. -/
def Item.opensBlock : Item → Bool
  | .command e =>
      match e.named with
      | .ok (name, _) => name == "if" || name == "random"
      | .error _ => false
  | _ => false

theorem Item.opensBlock_of_named {e inner : Enclosed} {name : String} {t : Token}
    (named : e.named = .ok (name, t, inner)) (block : name = "if" ∨ name = "random") :
    (Item.command e).opensBlock := by
  rcases block with rfl | rfl <;> simp [opensBlock, named]

namespace Body

/-- Whether no block is opened behind a reply of the same body, where items are read from a state
on. -/
def Reading.BlocksFirst (dialogue : String) (allowed : List String) (s : Reading) :
    List Item → Prop
  | [] => True
  | item :: rest =>
      (item.opensBlock → s.body.replies = []) ∧
        ∀ next, s.step dialogue allowed item = .ok next → next.BlocksFirst dialogue allowed rest

instance decideBlocksFirst (dialogue : String) (allowed : List String) :
    (items : List Item) → (s : Reading) → Decidable (s.BlocksFirst dialogue allowed items)
  | [], _ => .isTrue trivial
  | item :: rest, s =>
      have : Decidable (s.body.replies = []) := decidable_of_iff _ List.isEmpty_iff
      have : Decidable (∀ next, s.step dialogue allowed item = .ok next →
          next.BlocksFirst dialogue allowed rest) :=
        match s.step dialogue allowed item with
        | .error _ => .isTrue nofun
        | .ok next =>
            have := decideBlocksFirst dialogue allowed rest next
            decidable_of_iff (next.BlocksFirst dialogue allowed rest)
              ⟨fun first _ same => Except.ok.inj same ▸ first, fun each => each next rfl⟩
      inferInstanceAs (Decidable ((item.opensBlock → s.body.replies = []) ∧ _))

/-- The numbers of the replies in the clauses of a block that have been read. -/
def Block.numbers : Block → List Nat
  | .choice done _ => numbersOfClauses done
  | .random done _ => numbersOfWeighted done

/-- The numbers of the replies around the body being read, those of the outermost body in front. -/
def numbersOfFrames : List Frame → List Nat
  | [] => []
  | f :: rest => numbersOfFrames rest ++ (f.outer.numbers ++ f.block.numbers)

namespace Reading

/-- The numbers of all replies that have been read. -/
def numbers (s : Reading) : List Nat := numbersOfFrames s.frames ++ s.body.numbers

/-- Whether the replies that have been read are numbered one after the other, and none stands in
front of an open block. -/
structure Numbered (s : Reading) : Prop where
  counts : Counts 1 s.numbers
  next : s.nextReply = s.numbers.length + 1
  bare : ∀ f ∈ s.frames, f.outer.replies = []

variable {s s' : Reading} {dialogue : String} {allowed : List String}

theorem Numbered.of_same (numbered : s.Numbered) (same : s'.numbers = s.numbers)
    (next : s'.nextReply = s.nextReply) (bare : ∀ f ∈ s'.frames, f.outer.replies = []) :
    s'.Numbered := by
  refine ⟨same ▸ numbered.counts, ?_, bare⟩
  rw [next, numbered.next, same]

theorem Numbered.withCommand (numbered : s.Numbered) (bare : s.body.replies = []) {c : Command}
    (none : c.numbers = []) : (s.withCommand c).Numbered := by
  refine numbered.of_same ?_ rfl numbered.bare
  rw [numbers, Reading.withCommand, numbers_addCommand bare, none, List.append_nil]
  rfl

theorem Numbered.enter (numbered : s.Numbered) (bare : s.body.replies = []) {opener : Position}
    {block : Block} (none : block.numbers = []) : (s.enter opener block).Numbered := by
  refine numbered.of_same ?_ rfl fun f member => ?_
  · simp [numbers, Reading.enter, numbersOfFrames, none, Body.numbers, numbersOfSegments, empty]
  · rcases List.mem_cons.mp member with rfl | outer
    · exact bare
    · exact numbered.bare f outer

theorem Numbered.reopen (numbered : s.Numbered) {f : Frame} {rest : List Frame}
    (inside : s.frames = f :: rest) {block : Block}
    (same : block.numbers = f.block.numbers ++ s.body.numbers) :
    (s.reopen f rest block).Numbered := by
  have bare := numbered.bare
  rw [inside] at bare
  refine numbered.of_same ?_ rfl fun g member => ?_
  · simp [numbers, Reading.reopen, numbersOfFrames, same, inside, Body.numbers, numbersOfSegments,
      empty]
  · rcases List.mem_cons.mp member with rfl | outer
    · exact bare f List.mem_cons_self
    · exact bare g (List.mem_cons_of_mem f outer)

theorem Numbered.close (numbered : s.Numbered) {f : Frame} {rest : List Frame}
    (inside : s.frames = f :: rest) {c : Command}
    (same : c.numbers = f.block.numbers ++ s.body.numbers) : (s.close f rest c).Numbered := by
  have bare := numbered.bare
  rw [inside] at bare
  refine numbered.of_same ?_ rfl fun g member => bare g (List.mem_cons_of_mem f member)
  rw [numbers, numbers, Reading.close, numbers_addCommand (bare f List.mem_cons_self), same, inside]
  simp [numbersOfFrames]

theorem Numbered.withReply (numbered : s.Numbered) {r : Reply} {use : PointerUse}
    (id : r.id = s.nextReply) : (s.withReply r use).Numbered := by
  obtain ⟨counts, next, bare⟩ := numbered
  have all : (s.withReply r use).numbers = s.numbers ++ [s.nextReply] := by
    rw [numbers, Reading.withReply, numbers_addReply, id, ← List.append_assoc]
    rfl
  refine ⟨?_, ?_, bare⟩
  · rw [all]
    refine counts_append_iff.mpr ⟨counts, ?_⟩
    rw [next, Nat.add_comm]
    rfl
  · rw [all, List.length_append]
    exact congrArg (· + 1) next

/-- What is taken keeps the numbering, a block as long as no reply stands in front of it. -/
theorem Numbered.takes {item : Item} (numbered : s.Numbered)
    (first : item.opensBlock → s.body.replies = []) (taken : Takes dialogue allowed s item s') :
    s'.Numbered := by
  -- only a reply adds a number; a clause or a block that ends moves the numbers of its body
  cases taken with
  | text fits =>
    unfold Reading.withText
    split
    · refine numbered.of_same ?_ rfl numbered.bare
      rw [numbers, numbers_addText]
      rfl
    · exact numbered
  | set _ _ bare _ => exact numbered.withCommand bare rfl
  | action _ _ bare _ _ => exact numbered.withCommand bare rfl
  | input _ _ bare _ _ => exact numbered.withCommand bare rfl
  | openChoice named _ _ =>
    exact numbered.enter (first (Item.opensBlock_of_named named (.inl rfl))) rfl
  | openRandom named _ _ _ =>
    exact numbered.enter (first (Item.opensBlock_of_named named (.inr rfl))) rfl
  | nextChoice _ inside block _ =>
    refine numbered.reopen inside ?_
    simp [Block.numbers, block, numbersOfClauses_append, numbersOfClauses, numbers_trim]
  | otherwise _ inside block _ =>
    refine numbered.reopen inside ?_
    simp [Block.numbers, block, numbersOfClauses_append, numbersOfClauses, numbers_trim]
  | closeChoice _ inside block _ =>
    refine numbered.close inside ?_
    simp [Command.numbers, Block.numbers, block, numbersOfClauses_append, numbersOfClauses,
      numbersOfOption, numbers_trim]
  | closeOtherwise _ inside block _ =>
    refine numbered.close inside ?_
    simp [Command.numbers, Block.numbers, block, numbersOfOption, numbers_trim]
  | nextRandom _ inside block _ _ =>
    refine numbered.reopen inside ?_
    simp [Block.numbers, block, numbersOfWeighted_append, numbersOfWeighted, numbers_trim]
  | closeRandom _ inside block _ =>
    refine numbered.close inside ?_
    simp [Command.numbers, Block.numbers, block, numbersOfWeighted_append, numbersOfWeighted,
      numbers_trim]
  | reply read _ =>
    obtain ⟨_, _, _, _, _, _, _, _, _, id⟩ := sections_of_replyOf read
    exact numbered.withReply id

theorem Numbered.fold {items : List Item} (numbered : s.Numbered)
    (first : s.BlocksFirst dialogue allowed items)
    (run : items.foldlM (step dialogue allowed) s = .ok s') : s'.Numbered := by
  induction items generalizing s with
  | nil =>
    cases run
    exact numbered
  | cons item rest ih =>
    obtain ⟨m, taken, later⟩ := foldlM_cons_eq_ok_iff.mp run
    exact ih (numbered.takes first.1 (takes_of_step taken)) (first.2 m taken) later

end Reading

/-- The replies of a body that is read are numbered in the order of its script, if no block is
opened behind a reply of the same body. -/
theorem counts_of_ofTokens {dialogue : String} {allowed : List String} {tokens : List Token}
    {b : Body}
    {uses : List PointerUse} (read : ofTokens dialogue allowed tokens = .ok (b, uses))
    (first : (Reading.start 1).BlocksFirst dialogue allowed (Item.ofTokens tokens)) :
    Counts 1 b.numbers := by
  obtain ⟨s, run, last⟩ := bind_eq_ok_iff.mp read
  have start : (Reading.start 1).Numbered := ⟨rfl, rfl, by simp [Reading.start]⟩
  have numbered : s.Numbered := start.fold first run
  unfold Reading.finish at last
  split at last
  · rename_i closed
    cases last
    have all : s.numbers = s.body.numbers := by
      rw [Reading.numbers, closed]
      rfl
    rw [numbers_trim, ← all]
    exact numbered.counts
  · cases last

end Body
end Parley
