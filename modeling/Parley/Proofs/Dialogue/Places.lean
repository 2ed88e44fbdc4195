import Parley.Proofs.Dialogue.Blocks

/-!
The places of blocks. A block further down a script gives the same node, or the same error further
down.
-/
namespace Parley

/-- The error a number of lines further down. -/
def DialogueError.down (k : Nat) : DialogueError → DialogueError
  | script e => script (e.down k)
  | node title e => node title (e.down k)

theorem DialogueError.isFatal_down (k : Nat) (e : DialogueError) :
    (e.down k).isFatal = e.isFatal := by
  cases e <;> rfl

namespace Dialogue

variable {k : Nat}

/-! Headers further down -/

namespace HeaderLines

/-- The header as if its lines stood further down. -/
def down (k : Nat) (h : HeaderLines) : HeaderLines :=
  { h with speaker := h.speaker.map fun (name, place) => (name, place.down k) }

theorem add_down (taken : String → Bool) (h : HeaderLines) (number : Nat) (line : List Char) :
    Moves k (down k) (h.add taken number line) ((h.down k).add taken (number + k) line) := by
  have seen : (h.down k).seen = h.seen := rfl
  unfold add
  dsimp only
  rw [seen]
  split
  · exact .ok rfl
  · split
    · exact .error rfl rfl
    · split
      · exact .error rfl rfl
      · split
        · exact .error rfl rfl
        · split
          · split
            · exact .error rfl rfl
            · split
              · exact .error rfl rfl
              · exact .ok rfl
          · split
            · exact .ok rfl
            · exact .ok rfl

/-- Lines further down make the same header, or one of them has the same error. -/
theorem addAll_down (taken : String → Bool) (h : HeaderLines) (number : Nat)
    (lines : List (List Char)) :
    (∃ whole, h.addAll taken number lines = .ok whole ∧
      (h.down k).addAll taken (number + k) lines = .ok (whole.down k)) ∨
    ∃ read e, h.addAll taken number lines = .error (read, e) ∧ e.cause.ofWhole = false ∧
      (h.down k).addAll taken (number + k) lines = .error (read.down k, e.down k) := by
  induction lines generalizing h number with
  | nil => exact .inl ⟨h, rfl, rfl⟩
  | cons line rest ih =>
    have moves := add_down (k := k) taken h number line
    rw [addAll, addAll]
    cases here : h.add taken number line with
    | error e =>
      rw [moves.eq_error here]
      exact .inr ⟨h, e, rfl, moves.inner e here, rfl⟩
    | ok next =>
      rw [moves.eq_ok here, Nat.add_right_comm]
      exact ih next (number + 1)

theorem header_down (h : HeaderLines) (number : Nat) :
    Moves k id (h.header number) ((h.down k).header (number + k)) := by
  obtain ⟨title, speaker, tags, seen⟩ := h
  cases title with
  | none => exact .error rfl rfl
  | some title =>
    unfold header
    dsimp only [down]
    split
    · exact .ok rfl
    · cases speaker with
      | none => exact .error rfl rfl
      | some entry =>
        dsimp only [Option.map_some]
        split
        · exact .error rfl rfl
        · exact .ok rfl

end HeaderLines

/-! Blocks further down -/

/-- The block a number of lines further down. -/
def NodeLines.down (k : Nat) (b : NodeLines) : NodeLines := { b with first := b.first + k }

theorem bodyOf_down (dialogue : String) (header : Header) (number : Nat)
    (lines : List (List Char)) :
    Moves k (fun (body, uses) => (body, uses.map (PointerUse.down k)))
      (bodyOf dialogue header number lines) (bodyOf dialogue header (number + k) lines) := by
  refine (Tokenizer.readLines_down .initial number _).bind fun tokens => ?_
  refine (Body.ofTokens_down dialogue Body.standardCommands tokens).bind fun found => ?_
  obtain ⟨body, uses⟩ := found
  dsimp only
  split
  · refine .error ?_ rfl
    rw [ScriptError.down, List.head?_map, Option.map_map, Option.map_map]
    rfl
  · exact .ok rfl

/-- A block further down gives nothing as before, or gives what moves with it. -/
theorem nodeOf_down (dialogue : String) (taken : String → Bool) (b : NodeLines) :
    (nodeOf dialogue taken b = none ∧ nodeOf dialogue taken (b.down k) = none) ∨
    ∃ title read further, nodeOf dialogue taken b = some (Except.mapError (.node title) read) ∧
      nodeOf dialogue taken (b.down k) = some (Except.mapError (.node title) further) ∧
      Moves k (fun (n, uses) => (n, uses.map (PointerUse.down k))) read further := by
  obtain ⟨first, lines, ended⟩ := b
  have behind : first + k + lines.length = first + lines.length + k := Nat.add_right_comm ..
  unfold nodeOf
  dsimp only [NodeLines.down, NodeLines.behind]
  generalize lines.takeWhile (!isHeaderEnd ·) = above
  obtain ⟨h, added, further⟩ | ⟨h, e, added, inner, further⟩ :=
    HeaderLines.addAll_down (k := k) taken .initial first above
  · have start : HeaderLines.initial.addAll taken (first + k) above = .ok (h.down k) := further
    rw [added, start, behind]
    cases lines.drop above.length with
    | nil =>
      have seen : (h.down k).seen = h.seen := rfl
      dsimp only
      rw [seen]
      cases ended with
      | true => exact .inr ⟨h.title, .error _, .error _, rfl, rfl, .error rfl rfl⟩
      | false =>
        cases h.seen with
        | nil => exact .inl ⟨rfl, rfl⟩
        | cons => exact .inr ⟨h.title, .error _, .error _, rfl, rfl, .error rfl rfl⟩
    | cons bar below =>
      refine .inr ⟨h.title, _, _, rfl, rfl, ?_⟩
      rw [Nat.add_right_comm first k]
      refine (h.header_down _).bind fun header => ?_
      dsimp only [id]
      rw [Nat.add_right_comm _ k]
      exact (bodyOf_down dialogue header _ below).bind fun _ => .ok rfl
  · have start : HeaderLines.initial.addAll taken (first + k) above = .error (h.down k, e.down k) :=
      further
    rw [added, start]
    exact .inr ⟨h.title, .error e, _, rfl, rfl, .error rfl inner⟩

/-- An error that is found in a block is one of its node. -/
theorem inner_of_nodeOf {name : String} {taken : String → Bool} {b : NodeLines}
    {e : DialogueError} (read : nodeOf name taken b = some (.error e)) :
    ∃ title c, e = .node title c ∧ c.cause.ofWhole = false := by
  obtain ⟨none, _⟩ | ⟨title, found, _, here, _, moves⟩ := nodeOf_down (k := 0) name taken b
  · cases read.symm.trans none
  · rw [read] at here
    cases found with
    | ok _ => cases here
    | error c =>
      cases here
      exact ⟨title, c, rfl, moves.inner c rfl⟩

end Dialogue

end Parley
