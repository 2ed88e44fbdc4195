import Parley.Dialogue.Parser
import Parley.Proofs.Body.Elsewhere

/-!
The blocks of a script. A block reaches up to a line that ends a node and gives a node or an error;
a script without errors gives a dialogue with a node for every such line.
-/
namespace Parley.Dialogue

theorem blocks_line (number : Nat) {line : List Char} (inner : isNodeEnd line = false)
    (rest : List (List Char)) : ∃ b others, blocks (number + 1) rest = b :: others ∧
      blocks number (line :: rest) =
        { b with first := number, lines := line :: b.lines } :: others := by
  have some : blocks (number + 1) rest ≠ [] := by
    cases rest with
    | nil => simp [blocks]
    | cons next more =>
      rw [blocks]
      split
      · simp
      · split <;> simp
  obtain ⟨b, others, found⟩ := List.exists_cons_of_ne_nil some
  refine ⟨b, others, found, ?_⟩
  rw [blocks, inner, found]
  rfl

/-- A block reaches up to the first line that ends a node. -/
theorem blocks_of_frame (number : Nat) {lines : List (List Char)} {last : List Char}
    (inner : ∀ line ∈ lines, isNodeEnd line = false) (ends : isNodeEnd last)
    (rest : List (List Char)) :
    blocks number (lines ++ last :: rest) =
      ⟨number, lines, true⟩ :: blocks (number + lines.length + 1) rest := by
  induction lines generalizing number with
  | nil =>
    rw [List.nil_append, blocks, if_pos ends]
    rfl
  | cons line more ih =>
    obtain ⟨b, others, found, whole⟩ :=
      blocks_line number (inner line List.mem_cons_self) (more ++ last :: rest)
    rw [List.cons_append, whole]
    rw [ih (number + 1) fun other member => inner other (List.mem_cons_of_mem line member)] at found
    obtain ⟨rfl, rfl⟩ := List.cons.inj found
    rw [List.length_cons, Nat.add_right_comm number, Nat.add_assoc number]

/-- As many blocks have an end as there are lines that end a node. -/
theorem countP_blocks (number : Nat) (lines : List (List Char)) :
    (blocks number lines).countP NodeLines.ended = lines.countP isNodeEnd := by
  induction lines generalizing number with
  | nil => rfl
  | cons line rest ih =>
    cases here : isNodeEnd line with
    | true =>
      rw [blocks, if_pos here, List.countP_cons_of_pos here, ← ih (number + 1)]
      exact List.countP_cons_of_pos rfl
    | false =>
      obtain ⟨b, others, found, whole⟩ := blocks_line number here rest
      have inner : (line :: rest).countP isNodeEnd = rest.countP isNodeEnd :=
        List.countP_cons_of_neg (by simp [here])
      rw [whole, inner, ← ih (number + 1), found, List.countP_cons, List.countP_cons]

/-- The lines of blocks are among those of the script. -/
theorem mem_of_blocks (number : Nat) (lines : List (List Char)) :
    ∀ b ∈ blocks number lines, ∀ line ∈ b.lines, line ∈ lines := by
  induction lines generalizing number with
  | nil => simp [blocks]
  | cons first rest ih =>
    intro b member line inside
    cases here : isNodeEnd first with
    | true =>
      rw [blocks, if_pos here] at member
      rcases List.mem_cons.mp member with rfl | later
      · cases inside
      · exact List.mem_cons_of_mem first (ih _ b later line inside)
    | false =>
      obtain ⟨c, others, found, whole⟩ := blocks_line number here rest
      rw [whole] at member
      rcases List.mem_cons.mp member with rfl | later
      · rcases List.mem_cons.mp inside with rfl | more
        · exact List.mem_cons_self
        · exact List.mem_cons_of_mem first (ih _ c (found ▸ List.mem_cons_self) line more)
      · exact List.mem_cons_of_mem first
          (ih _ b (found ▸ List.mem_cons_of_mem c later) line inside)

variable {dialogue : String} {taken : String → Bool} {b : NodeLines} {n : Node}
  {uses : List PointerUse}

/-! The node in a block -/

theorem bodyOf_eq_ok_iff {header : Header} {number : Nat} {lines : List (List Char)} {body : Body} :
    bodyOf dialogue header number lines = .ok (body, uses) ↔
      Body.ofLines dialogue number lines = .ok (body, uses) ∧
        (Pointer.isEndId header.title → body.isEmpty) := by
  have split : bodyOf dialogue header number lines = (do
      let tokens ← (Tokenizer.readLines .initial number (lines.map (· ++ ['\n']))).1
      let found ← Body.ofTokens dialogue Body.standardCommands tokens
      if Pointer.isEndId header.title && !found.1.isEmpty then
        .error ⟨.bodyOfEnd header.title, tokens.head?.map (·.position)⟩
      else return found) := rfl
  rw [split, Body.ofLines, bind_eq_ok_iff, bind_eq_ok_iff]
  constructor
  · rintro ⟨tokens, cut, formed⟩
    obtain ⟨⟨found, listed⟩, formed, last⟩ := bind_eq_ok_iff.mp formed
    dsimp only at last
    split at last
    · cases last
    · rename_i fits
      cases last
      exact ⟨⟨tokens, cut, formed⟩, fun isEnd => by simpa [isEnd] using fits⟩
  · rintro ⟨⟨tokens, cut, formed⟩, fits⟩
    refine ⟨tokens, cut, bind_eq_ok_iff.mpr ⟨(body, uses), formed, ?_⟩⟩
    dsimp only
    rw [if_neg]
    · rfl
    · simpa using fits

/-- A node that is read has a header from the lines above a bar and a body from those below it. -/
theorem of_nodeOf (read : nodeOf dialogue taken b = some (.ok (n, uses))) :
    ∃ above bar below h number, above = b.lines.takeWhile (!isHeaderEnd ·) ∧
      b.lines = above ++ bar :: below ∧
      HeaderLines.initial.addAll taken b.first above = .ok h ∧ h.header number = .ok n.header ∧
      Body.ofLines dialogue (number + 1) below = .ok (n.body, uses) ∧
      (Pointer.isEndId n.title → n.body.isEmpty) := by
  unfold nodeOf at read
  dsimp only at read
  split at read
  · cases read
  rename_i h added
  split at read
  · repeat' split at read
    all_goals cases read
  rename_i bar below behind
  rw [Option.some.injEq, mapError_eq_ok_iff, bind_eq_ok_iff] at read
  obtain ⟨header, given, read⟩ := read
  obtain ⟨⟨body, found⟩, formed, last⟩ := bind_eq_ok_iff.mp read
  cases last
  obtain ⟨formed, fits⟩ := bodyOf_eq_ok_iff.mp formed
  refine ⟨_, bar, below, h, _, rfl, ?_, added, given, formed, fits⟩
  have above := List.prefix_iff_eq_take.mp (List.takeWhile_prefix (l := b.lines) (!isHeaderEnd ·))
  rw [← behind]
  conv_lhs => rw [← List.take_append_drop (b.lines.takeWhile (!isHeaderEnd ·)).length b.lines]
  rw [← above]

/-- A node is read from a block that has lines of its header, a bar, and lines of its body. -/
theorem nodeOf_of_frame {number : Nat} {above below : List (List Char)} {bar : List Char}
    {h : HeaderLines} (inner : ∀ line ∈ above, isHeaderEnd line = false) (isBar : isHeaderEnd bar)
    (header : HeaderLines.initial.addAll taken number above = .ok h)
    (whole : ∀ last, h.header last = .ok n.header)
    (body : Body.ofLines dialogue (number + above.length + 1) below = .ok (n.body, uses))
    (ended : Pointer.isEndId n.title → n.body.isEmpty) :
    nodeOf dialogue taken ⟨number, above ++ bar :: below, true⟩ = some (.ok (n, uses)) := by
  have lines : (above ++ bar :: below).takeWhile (!isHeaderEnd ·) = above :=
    takeWhile_append_of_stop (fun line member => by rw [inner line member]; rfl) (by simp [isBar])
  unfold nodeOf
  dsimp only
  rw [lines, header, List.drop_left]
  dsimp only
  rw [whole, ok_bind, bodyOf_eq_ok_iff.mpr ⟨body, ended⟩, ok_bind]
  rfl

/-- A block with an end has a node or an error in it. -/
theorem nodeOf_ne_none (ended : b.ended) : nodeOf dialogue taken b ≠ none := by
  unfold nodeOf
  dsimp only
  split
  · simp
  · split
    · rw [if_pos ended]
      simp
    · simp

/-! The whole script -/

theorem name_fold (blocks : List NodeLines) (r : Reading) :
    (blocks.foldl Reading.step r).dialogue.name = r.dialogue.name := by
  induction blocks generalizing r with
  | nil => rfl
  | cons b rest ih =>
    have step : (r.step b).dialogue.name = r.dialogue.name := by
      unfold Reading.step
      split <;> rfl
    rw [List.foldl_cons, ih, step]

/-- What a script has to give for it to be a dialogue. -/
theorem ofLines_eq_ok_iff {name : String} {lines : List (List Char)} {d : Dialogue} :
    ofLines name lines = .ok d ↔
      ∃ r, (blocks 1 lines).foldl Reading.step ⟨⟨name, []⟩, [], []⟩ = r ∧ r.errors = [] ∧
        nameErrors name = [] ∧ r.dialogue.start?.isSome ∧
        (∀ p ∈ r.pointers, isDangling r.dialogue p.use.pointer = false) ∧ r.dialogue = d := by
  unfold ofLines
  dsimp only
  generalize (blocks 1 lines).foldl Reading.step ⟨⟨name, []⟩, [], []⟩ = r
  have fine : wholeErrors r.dialogue r.pointers lines.length = [] ↔
      r.dialogue.start?.isSome ∧ ∀ p ∈ r.pointers, isDangling r.dialogue p.use.pointer = false := by
    simp [wholeErrors, Option.isSome_iff_ne_none]
  constructor
  · intro read
    split at read
    · cases read
    cases none : r.errors with
    | cons e others =>
      simp [none] at read
    | nil =>
      simp only [none, List.isEmpty_nil, ↓reduceIte, List.isEmpty_iff,
        List.append_eq_nil_iff] at read
      split at read
      · rename_i clean
        cases read
        exact ⟨r, rfl, none, clean.1, (fine.mp clean.2).1, (fine.mp clean.2).2, rfl⟩
      · cases read
  · rintro ⟨r, rfl, none, named, start, safe, rfl⟩
    simp [none, named, fine.mpr ⟨start, safe⟩]

/-! Counting -/

/-- How many nodes and errors there are. -/
def Reading.outcomes (r : Reading) : Nat := r.dialogue.nodes.length + r.errors.length

theorem outcomes_step (r : Reading) (b : NodeLines) :
    r.outcomes + (if b.ended then 1 else 0) ≤ (r.step b).outcomes := by
  cases outcome : nodeOf r.dialogue.name r.dialogue.hasNode b with
  | none =>
    have isOpen : b.ended = false := by
      by_contra ended
      exact nodeOf_ne_none (by simpa using ended) outcome
    have stays : r.step b = r := by rw [Reading.step, outcome]
    rw [stays, isOpen]
    exact Nat.le_refl _
  | some read =>
    have grows : (r.step b).outcomes = r.outcomes + 1 := by
      rw [Reading.step, outcome]
      cases read with
      | error e => simp only [Reading.outcomes, List.length_append, List.length_singleton]; omega
      | ok found => simp only [Reading.outcomes, List.length_append, List.length_singleton]; omega
    rw [grows]
    split <;> omega

theorem outcomes_fold (blocks : List NodeLines) (r : Reading) :
    r.outcomes + blocks.countP NodeLines.ended ≤ (blocks.foldl Reading.step r).outcomes := by
  induction blocks generalizing r with
  | nil => simp
  | cons b rest ih =>
    have first := outcomes_step r b
    have later := ih (r.step b)
    rw [List.countP_cons, List.foldl_cons]
    omega

/-- A dialogue has a node for every line that ends one. -/
theorem countP_le_length {name : String} {lines : List (List Char)} {d : Dialogue}
    (read : ofLines name lines = .ok d) : lines.countP isNodeEnd ≤ d.nodes.length := by
  obtain ⟨r, folded, noErrors, _, _, _, rfl⟩ := ofLines_eq_ok_iff.mp read
  have all := outcomes_fold (blocks 1 lines) ⟨⟨name, []⟩, [], []⟩
  rw [folded, countP_blocks] at all
  simpa [Reading.outcomes, noErrors] using all

end Parley.Dialogue
