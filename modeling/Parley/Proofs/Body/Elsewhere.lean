import Parley.Proofs.Body.Places

/-!
Bodies that stand elsewhere in a script. The same lines have the same tokens further down, and what
is read of tokens does not depend on where they stand, so the same lines are read as the same body.
-/
namespace Parley

variable {k : Nat}

namespace Body

/-! Statements, commands and pointers of replies -/

theorem permit_down (allowed : List String) (name : String) (t : Token) :
    Moves k id (permit allowed name t) (permit allowed name (t.down k)) := by
  unfold permit
  split
  · exact .ok rfl
  · split <;> exact .error rfl rfl

theorem statementStep_down (segments : List (Segment Input)) (item : Item) :
    Moves k id (statementStep segments item) (statementStep segments (item.down k)) := by
  cases item with
  | text tokens =>
    rw [statementStep, Item.down, statementStep, Item.template_down]
    exact .ok rfl
  | command tokens =>
    exact Moves.bind tokens.named_down fun found =>
      Moves.bind (permit_down ["input"] found.1 found.2.1) fun _ =>
        Moves.bind (Attributes.ofCommand_down found.2.2) fun a =>
          Moves.bind (Input.ofAttributes_down a) fun _ => .ok rfl
  | reply tokens => exact .error rfl rfl
  | stray t => exact .error rfl rfl

theorem statementSteps_down (segments : List (Segment Input)) (items : List Item) :
    Moves k id (items.foldlM statementStep segments)
      ((items.map (Item.down k)).foldlM statementStep segments) :=
  Moves.foldlM statementStep_down segments items

theorem statementOf_down (tokens : List Token) :
    Moves k id (statementOf tokens) (statementOf (tokens.map (Token.down k))) := by
  rw [statementOf, statementOf, Item.ofTokens_down]
  exact Moves.bind (statementSteps_down [] _) fun _ => .ok rfl

theorem replyCommand_down (tokens : Enclosed) :
    Moves k id (replyCommand tokens) (replyCommand (tokens.down k)) := by
  refine Moves.bind tokens.named_down fun (name, t, e) =>
    Moves.bind (permit_down ["action", "set"] name t) fun _ => ?_
  split
  · exact Moves.bind (Attributes.ofCommand_down e) fun a =>
      Moves.bind (Action.ofAttributes_down a) fun _ => .ok rfl
  · exact Moves.bind e.assignment_down fun _ => .ok rfl

theorem replyCommands_down (items : List Item) :
    Moves k id (replyCommands items) (replyCommands (items.map (Item.down k))) := by
  induction items with
  | nil => exact .ok rfl
  | cons item rest ih =>
    rw [List.map_cons]
    cases item with
    | text tokens =>
      rw [Item.down, replyCommands, replyCommands, Token.skipBlank_down]
      cases Token.skipBlank tokens with
      | nil => exact ih
      | cons t others => exact .error rfl rfl
    | command tokens =>
      exact Moves.bind (replyCommand_down tokens) fun _ => Moves.bind ih fun _ => .ok rfl
    | reply tokens => exact .error rfl rfl
    | stray t => exact .error rfl rfl

def Section.down (k : Nat) (s : Section) : Section :=
  ⟨s.tokens.map (Token.down k), s.stop.down k⟩

theorem sections_down (reply : Enclosed) (left : Nat) (read tokens : List Token) :
    Moves k (List.map (Section.down k)) (sections reply left read tokens)
      (sections (reply.down k) left (read.map (Token.down k))
        (tokens.map (Token.down k))) := by
  induction tokens generalizing left read with
  | nil =>
    rw [List.map_nil, sections.eq_def, sections.eq_def]
    simp only [Enclosed.down]
    cases reply.stop with
    | none => exact .error rfl rfl
    | some stop => exact .ok rfl
  | cons t rest ih =>
    have kind : (t.down k).kind = t.kind := rfl
    rw [List.map_cons, sections.eq_def, sections.eq_def]
    dsimp only
    rw [kind]
    split
    · cases left with
      | zero => exact .error rfl rfl
      | succ left => exact Moves.bind (ih left []) fun _ => .ok rfl
    · have later := ih left (read ++ [t])
      rw [List.map_append] at later
      exact later

end Body

def PointerUse.down (k : Nat) (use : PointerUse) : PointerUse :=
  ⟨use.pointer, use.position.down k⟩

namespace Body

theorem pointerOf_down (dialogue : String) (s : Section) :
    Moves k (PointerUse.down k) (pointerOf dialogue s) (pointerOf dialogue (s.down k)) := by
  simp only [pointerOf, Section.down, Token.trim_down]
  cases Token.trim s.tokens with
  | nil => exact .error rfl rfl
  | cons first rest =>
    obtain ⟨content, source, position⟩ := first
    cases rest with
    | nil =>
      cases content with
      | text value =>
        simp only [List.map_cons, List.map_nil, Token.down]
        cases Pointer.ofText dialogue value with
        | ok pointer => exact .ok rfl
        | error defect => exact .error rfl rfl
      | _ => exact .error rfl rfl
    | cons second others => cases content <;> exact .error rfl rfl

theorem statementIn_down (s : Option Section) :
    Moves k id (statementIn s) (statementIn (s.map (Section.down k))) := by
  cases s with
  | none => exact .ok rfl
  | some s => exact statementOf_down s.tokens

theorem commandsIn_down (s : Option Section) :
    Moves k id (commandsIn s) (commandsIn (s.map (Section.down k))) := by
  cases s with
  | none => exact .ok rfl
  | some s =>
    have items := replyCommands_down (k := k) (Item.ofTokens s.tokens)
    rw [← Item.ofTokens_down] at items
    exact items

theorem replyOf_down (dialogue : String) (id : Nat) (tokens : Enclosed) :
    Moves k (fun (r, use) => (r, PointerUse.down k use)) (replyOf dialogue id tokens)
      (replyOf dialogue id (tokens.down k)) := by
  unfold replyOf
  refine Moves.bind (sections_down tokens 2 [] tokens.inner) fun parts => ?_
  have rest (statement commands : Option Section) (pointer : Section) :
      Moves k (fun (r, use) => (r, PointerUse.down k use))
        (do
          let said ← statementIn statement
          let use ← pointerOf dialogue pointer
          let done ← commandsIn commands
          return ((⟨id, said, use.pointer, done⟩ : Reply), use))
        (do
          let said ← statementIn (statement.map (Section.down k))
          let use ← pointerOf dialogue (pointer.down k)
          let done ← commandsIn (commands.map (Section.down k))
          return ((⟨id, said, use.pointer, done⟩ : Reply), use)) := by
    refine Moves.bind (statementIn_down statement) fun said => ?_
    refine Moves.bind (pointerOf_down dialogue pointer) fun use => ?_
    exact Moves.bind (commandsIn_down commands) fun done => .ok rfl
  match parts with
  | [] => exact .error rfl rfl
  | [pointer] => exact rest none none pointer
  | [statement, pointer] => exact rest (some statement) none pointer
  | statement :: pointer :: commands :: more => exact rest (some statement) (some commands) pointer

def Frame.down (k : Nat) (f : Frame) : Frame := { f with opener := f.opener.down k }

namespace Reading

/-- The reading as if all that it has taken stood further down. -/
def down (k : Nat) (s : Reading) : Reading :=
  { s with frames := s.frames.map (Frame.down k), uses := s.uses.map (PointerUse.down k) }

theorem command_down (s : Reading) (name : String) (tokens : Enclosed) :
    Moves k (down k) (s.command name tokens) ((s.down k).command name (tokens.down k)) := by
  unfold command
  split
  · exact (tokens.condition_down "if").bind fun _ => .ok rfl
  · exact (Attributes.ofCommand_down tokens).bind fun a => (weightOf_down a).bind fun _ => .ok rfl
  · exact tokens.assignment_down.bind fun _ => .ok rfl
  · exact (Attributes.ofCommand_down tokens).bind fun a =>
      (Action.ofAttributes_down a).bind fun _ => .ok rfl
  · exact (Attributes.ofCommand_down tokens).bind fun a =>
      (Input.ofAttributes_down a).bind fun _ => .ok rfl

theorem permitted_down (s : Reading) (allowed : List String) (name : String) (t : Token)
    (tokens : Enclosed) : Moves k (down k) (s.permitted allowed name t tokens)
      ((s.down k).permitted allowed name (t.down k) (tokens.down k)) := by
  have replies : (s.down k).body.replies = s.body.replies := rfl
  unfold permitted
  rw [replies]
  split
  · exact .error rfl rfl
  · exact (permit_down allowed name t).bind fun _ => command_down s name tokens

theorem clause_down (s : Reading) (f : Frame) (rest : List Frame) (name : String)
    (tokens : Enclosed) : Moves k (down k) (s.clause f rest name tokens)
      ((s.down k).clause (f.down k) (rest.map (Frame.down k)) name (tokens.down k)) := by
  obtain ⟨opener, block, outer⟩ := f
  cases block with
  | random done weight =>
    refine (Attributes.ofCommand_down tokens).bind fun a => ?_
    split
    · exact .ok rfl
    · exact (weightOf_down a).bind fun _ => .ok rfl
  | choice done guard =>
    unfold clause
    cases guard with
    | some condition =>
      dsimp only [Frame.down]
      split
      · exact (tokens.condition_down "elseif").bind fun _ => .ok rfl
      · split
        · exact (tokens.nameOnly_down "else").bind fun _ => .ok rfl
        · exact (tokens.nameOnly_down "endif").bind fun _ => .ok rfl
    | none =>
      dsimp only [Frame.down]
      split
      · exact .error rfl rfl
      · split
        · exact .error rfl rfl
        · exact (tokens.nameOnly_down "endif").bind fun _ => .ok rfl

/-- What a reading takes further down, it takes in the same way or refuses for the same cause. -/
theorem step_down (dialogue : String) (allowed : List String) (s : Reading) (item : Item) :
    Moves k (down k) (step dialogue allowed s item)
      (step dialogue allowed (s.down k) (item.down k)) := by
  have replies : (s.down k).body.replies = s.body.replies := rfl
  cases item with
  | text tokens =>
    rw [Item.down, step, step, Item.template_down, replies]
    split
    · exact .ok rfl
    · split
      · exact .ok rfl
      · refine .error ?_ rfl
        rw [ScriptError.down, List.head?_map, Option.map_map, Option.map_map]
        rfl
  | command tokens =>
    refine tokens.named_down.bind fun found => ?_
    obtain ⟨name, t, e⟩ := found
    have frames : (s.down k).frames = s.frames.map (Frame.down k) := rfl
    rw [frames]
    cases s.frames with
    | nil => exact permitted_down s allowed name t e
    | cons f rest =>
      have block : (f.down k).block = f.block := rfl
      simp only [List.map_cons, block]
      split
      · exact clause_down s f rest name e
      · split
        · exact .error rfl rfl
        · exact permitted_down s standardCommands name t e
  | reply tokens =>
    refine (replyOf_down dialogue s.nextReply tokens).bind fun found => ?_
    obtain ⟨r, use⟩ := found
    have body : (s.down k).body = s.body := rfl
    dsimp only
    rw [body]
    split
    · exact .error rfl rfl
    · refine .ok ?_
      simp only [down, List.map_append, List.map_cons, List.map_nil]
  | stray t => exact .error rfl rfl

theorem finish_down (s : Reading) :
    Moves k (fun (b, uses) => (b, uses.map (PointerUse.down k))) s.finish (s.down k).finish := by
  have frames : (s.down k).frames = s.frames.map (Frame.down k) := rfl
  rw [finish, finish, frames]
  cases s.frames with
  | nil => exact .ok rfl
  | cons f rest => exact .error rfl rfl

end Reading

/-- Tokens further down form the same body, with the same pointers. -/
theorem ofTokens_down (dialogue : String) (allowed : List String) (tokens : List Token) :
    Moves k (fun (b, uses) => (b, uses.map (PointerUse.down k)))
      (ofTokens dialogue allowed tokens)
      (ofTokens dialogue allowed (tokens.map (Token.down k))) := by
  rw [ofTokens, ofTokens, Item.ofTokens_down]
  exact (Moves.foldlM (Reading.step_down dialogue allowed) _ _).bind Reading.finish_down

end Body

/-! Tokens of lines further down -/

namespace Tokenizer

theorem ofWhole_of_step {state : Tokenizer} {c : Char} {rest : List Char} {cause : Cause}
    (defect : step state c rest = .defect cause) : cause.ofWhole = false := by
  revert defect
  fun_cases step state c rest <;> rintro ⟨⟩ <;> rfl

theorem pieces_down (state : Tokenizer) (p : Position) (cs : List Char) :
    Moves k id (pieces state p cs).1 (pieces state (p.down k) cs).1 ∧
      (pieces state (p.down k) cs).2 = (pieces state p cs).2 := by
  fun_induction pieces state p cs with
  | case1 state p =>
    rw [pieces]
    exact ⟨.ok rfl, rfl⟩
  | case2 state p c rest isComment =>
    rw [pieces, isComment]
    exact ⟨.ok rfl, rfl⟩
  | case3 state p c rest cause isDefect =>
    rw [pieces, isDefect]
    exact ⟨.error rfl (ofWhole_of_step isDefect), rfl⟩
  | case4 state p c rest content value further after isPiece source piece following final eq ih =>
    obtain ⟨moves, after_eq⟩ := ih
    rw [eq] at moves after_eq
    rw [pieces, isPiece]
    exact ⟨moves.map fun _ => rfl, after_eq⟩

theorem assemble_down (p : Position) (ps : List Piece) :
    assemble (p.down k) ps = (assemble p ps).map (Token.down k) := by
  induction ps generalizing p with
  | nil => rfl
  | cons piece rest ih =>
    have later := ih ⟨p.line, p.column + piece.source.length⟩
    rw [Position.down] at later
    cases piece with
    | mark content source =>
      simp only [assemble, Position.down, later, List.map_cons]
      rfl
    | plain source value =>
      simp only [assemble, Position.down, later]
      split <;> rfl

theorem readLine_down (state : Tokenizer) (n : Nat) (line : List Char) :
    Moves k (List.map (Token.down k)) (readLine state n line).1 (readLine state (n + k) line).1 ∧
      (readLine state (n + k) line).2 = (readLine state n line).2 := by
  obtain ⟨moves, final⟩ := pieces_down (k := k) state ⟨n, 1⟩ line
  exact ⟨moves.map fun ps => assemble_down ⟨n, 1⟩ (join ps), final⟩

/-- Lines further down are cut into the same tokens further down. -/
theorem readLines_down (state : Tokenizer) (n : Nat) (lines : List (List Char)) :
    Moves k (List.map (Token.down k)) (readLines state n lines).1
      (readLines state (n + k) lines).1 := by
  suffices each : Moves k (List.map (List.map (Token.down k)))
      ((readEach state n lines).1.mapM id) ((readEach state (n + k) lines).1.mapM id) from
    each.map fun tokens => (List.map_flatten ..).symm
  induction lines generalizing state n with
  | nil => exact .ok rfl
  | cons line rest ih =>
    obtain ⟨here, final⟩ := readLine_down (k := k) state n line
    rw [readEach, readEach]
    generalize readLine state n line = x at here final
    generalize readLine state (n + k) line = y at here final
    obtain ⟨x, after⟩ := x
    obtain ⟨y, after'⟩ := y
    cases final
    obtain ⟨same, inner⟩ := here
    cases same
    cases x with
    | error e => exact .error rfl (inner e rfl)
    | ok tokens =>
      have later := ih after (n + 1)
      rw [Nat.add_right_comm] at later
      dsimp only [Except.map, Except.mapError]
      rw [List.mapM_cons, List.mapM_cons]
      exact Moves.bind (.ok rfl) fun _ => Moves.bind later fun _ => .ok rfl

end Tokenizer

namespace Body

/-- The body in some lines of a script numbered from `n` on, each with its break. -/
def ofLines (dialogue : String) (n : Nat) (lines : List (List Char)) :
    Except ScriptError (Body × List PointerUse) := do
  ofTokens dialogue standardCommands
    (← (Tokenizer.readLines .initial n (lines.map (· ++ ['\n']))).1)

/-- It does not matter where in a script the lines of a body stand. -/
theorem ofLines_down (dialogue : String) (n : Nat) (lines : List (List Char)) :
    Moves k (fun (b, uses) => (b, uses.map (PointerUse.down k))) (ofLines dialogue n lines)
      (ofLines dialogue (n + k) lines) :=
  (Tokenizer.readLines_down .initial n _).bind fun tokens =>
    ofTokens_down dialogue standardCommands tokens

end Body

end Parley
