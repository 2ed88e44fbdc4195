import Parley.Proofs.Body.Blocks
import Parley.Proofs.Body.Running

/-!
Which replies a run puts out: some of those that the body has at any depth, in the order in which
they are run. Text and commands go by without a reply, and what is put out has no blocks.
-/
namespace Parley

/-- What a reply keeps when its texts are settled. -/
def Reply.mark (r : Reply) : Nat × Pointer := (r.id, r.pointer)

theorem Reply.mark_of_resolve {r shown : Reply} {lookup : String → Option Value}
    (settled : r.resolve lookup = .ok shown) : shown.mark = r.mark := by
  obtain ⟨id, pointer, _⟩ := Reply.resolve_eq_ok settled
  rw [mark, mark, id, pointer]

variable {σ α β : Type} {rs ts : List Reply}

/-- Whether a run, however it ends, adds some of the given replies to the output in their order, and
no block. -/
def Offers (rs : List Reply) (m : Run (Stage σ) α) : Prop :=
  ∀ stage, ∃ shown, (m stage).2.output.replies = stage.output.replies ++ shown ∧
    (m stage).2.output.blocks = stage.output.blocks ∧
    (shown.map Reply.mark).Sublist (rs.map Reply.mark)

theorem Offers.mono {m : Run (Stage σ) α} (offers : Offers rs m) (among : rs.Sublist ts) :
    Offers ts m := by
  intro stage
  obtain ⟨shown, replies, blocks, order⟩ := offers stage
  exact ⟨shown, replies, blocks, order.trans (among.map Reply.mark)⟩

theorem offers_of_same {m : Run (Stage σ) α} (same : ∀ stage, (m stage).2.output = stage.output) :
    Offers [] m := by
  intro stage
  exact ⟨[], by rw [same, List.append_nil], by rw [same], List.Sublist.slnil⟩

theorem offers_pure (a : α) : Offers [] (pure a : Run (Stage σ) α) := offers_of_same fun _ => rfl

theorem Offers.bind {x : Run (Stage σ) α} {f : α → Run (Stage σ) β} (first : Offers rs x)
    (later : ∀ a, Offers ts (f a)) : Offers (rs ++ ts) (x >>= f) := by
  intro stage
  rw [Run.bind_apply, List.map_append]
  obtain ⟨shown, replies, blocks, order⟩ := first stage
  cases outcome : x stage with
  | mk result next =>
    rw [outcome] at replies blocks
    cases result with
    | error e => exact ⟨shown, replies, blocks, order.trans (List.sublist_append_left _ _)⟩
    | ok a =>
      obtain ⟨more, replies', blocks', order'⟩ := later a next
      refine ⟨shown ++ more, ?_, blocks'.trans blocks, ?_⟩
      · rw [Run.andThen_ok, replies', replies, List.append_assoc]
      · rw [List.map_append]
        exact order.append order'

theorem offers_add {scope : Scope σ} {f : (String → Option Value) → Except Failure α}
    {g : α → Body → Body} (blocks : ∀ a b, (g a b).blocks = b.blocks)
    (adds : ∀ lookup a b, f lookup = .ok a → ∃ shown, (g a b).replies = b.replies ++ shown ∧
      (shown.map Reply.mark).Sublist (rs.map Reply.mark)) :
    Offers rs (do
      let settled ← settle scope f
      Stage.onOutput (g settled) : Run (Stage σ) Unit) := by
  intro stage
  rw [Run.bind_apply, settle_apply]
  cases outcome : f fun name => scope.read name stage.vars with
  | error e => exact ⟨[], (List.append_nil _).symm, rfl, List.nil_sublist _⟩
  | ok a =>
    obtain ⟨shown, replies, order⟩ := adds _ a stage.output outcome
    exact ⟨shown, replies, blocks a stage.output, order⟩

theorem offers_showReply (scope : Scope σ) (r : Reply) : Offers [r] (showReply scope r) := by
  refine offers_add (fun _ _ => Body.blocks_addReply _ _) fun _ shown b settled => ?_
  refine ⟨[shown], rfl, ?_⟩
  rw [List.map_singleton, Reply.mark_of_resolve settled]
  exact List.Sublist.refl _

theorem silent_showText (scope : Scope σ) (t : Template) : Offers [] (showText scope t) := by
  refine offers_add (fun resolved b => ?_)
    fun _ resolved b _ => ⟨[], (List.append_nil _).symm, List.Sublist.slnil⟩
  rw [Body.blocks_addSegment]
  simp [Segment.atoms, bodiesOfAtom]

theorem silent_addCommand {scope : Scope σ} {f : (String → Option Value) → Except Failure α}
    {command : α → Command} (bare : ∀ a, (command a).bodies = []) :
    Offers [] (do
      let settled ← settle scope f
      Stage.onOutput (·.addCommand (command settled)) : Run (Stage σ) Unit) := by
  refine offers_add (fun a b => ?_)
    fun _ _ _ _ => ⟨[], (List.append_nil _).symm, List.Sublist.slnil⟩
  rw [Body.blocks_addCommand, bare, List.append_nil]

/-- All steps of a run but the showing of a reply are silent. -/
theorem silent_passes (scope : Scope σ) :
    Body.Law.Passes { reply := fun _ => False } scope fun _ m => Offers [] m where
  pure _ := offers_pure
  bind _ _ _ _ := Offers.bind
  text t _ := silent_showText scope t
  action a _ := silent_addCommand fun _ => rfl
  input i _ := silent_addCommand fun _ => rfl
  reply _ none := none.elim
  set s _ := offers_of_same fun _ => rfl
  condition e _ := offers_of_same fun _ => rfl
  number x := offers_of_same fun stage => by rw [Run.ofExcept_apply]
  draw := offers_of_same fun _ => rfl

theorem offers_runReplies (scope : Scope σ) (replies : List Reply) :
    Offers replies (runReplies scope replies) := by
  induction replies with
  | nil => exact offers_pure ()
  | cons r rest ih =>
    rw [runReplies_cons]
    exact (offers_showReply scope r).bind fun _ => ih

mutual

theorem Command.offers_run (scope : Scope σ) (c : Command) :
    Offers (c.bodies.flatMap Body.offers) (c.run scope) := by
  cases c with
  | action a =>
    rw [Command.run, settle_bind]
    exact (silent_passes scope).action a trivial
  | set s =>
    rw [Command.run]
    exact ((silent_passes scope).set s trivial).bind fun _ => offers_pure ()
  | choice clauses otherwise =>
    rw [Command.run, Command.bodies, List.flatMap_append]
    refine (offers_runClauses scope clauses).bind fun done => ?_
    cases done
    · exact offers_runOptional scope otherwise
    · exact (offers_pure ()).mono (List.nil_sublist _)
  | random clauses =>
    rw [Command.run]
    exact (choose_passed (silent_passes scope) _).bind fun number =>
      offers_runNumbered scope number clauses
  | input i =>
    rw [Command.run, settle_bind]
    exact (silent_passes scope).input i trivial

theorem offers_runClauses (scope : Scope σ) (clauses : List IfClause) :
    Offers ((clauses.map (·.body)).flatMap Body.offers) (runClauses scope clauses) := by
  match clauses with
  | [] =>
    rw [runClauses]
    exact offers_pure false
  | ⟨condition, body⟩ :: rest =>
    rw [runClauses, List.map_cons, List.flatMap_cons]
    refine ((silent_passes scope).condition condition trivial).bind fun value => ?_
    cases value.truthy
    · exact (offers_runClauses scope rest).mono (List.sublist_append_right _ _)
    · have taken := (body.offers_run scope).bind fun _ => offers_pure true
      rw [List.append_nil] at taken
      exact taken.mono (List.sublist_append_left _ _)

theorem offers_runNumbered (scope : Scope σ) (number : Nat) (clauses : List RandomClause) :
    Offers ((clauses.map (·.body)).flatMap Body.offers) (runNumbered scope number clauses) := by
  match number, clauses with
  | _, [] =>
    rw [runNumbered]
    exact offers_pure ()
  | 0, ⟨weight, body⟩ :: rest =>
    rw [runNumbered, List.map_cons, List.flatMap_cons]
    exact (body.offers_run scope).mono (List.sublist_append_left _ _)
  | number + 1, ⟨weight, body⟩ :: rest =>
    rw [runNumbered, List.map_cons, List.flatMap_cons]
    exact (offers_runNumbered scope number rest).mono (List.sublist_append_right _ _)

theorem offers_runOptional (scope : Scope σ) (o : Option Body) :
    Offers (o.toList.flatMap Body.offers) (runOptional scope o) := by
  match o with
  | none =>
    rw [runOptional]
    exact offers_pure ()
  | some body =>
    rw [runOptional, Option.toList_some, List.flatMap_singleton]
    exact body.offers_run scope

theorem offers_runSegments (scope : Scope σ) (segments : List (Segment Command)) :
    Offers (((Segment.commands segments).flatMap Command.bodies).flatMap Body.offers)
      (runSegments scope segments) := by
  match segments with
  | [] =>
    rw [runSegments]
    exact offers_pure ()
  | .text t :: rest =>
    rw [runSegments_text]
    exact (silent_showText scope t).bind fun _ => offers_runSegments scope rest
  | .command c :: rest =>
    have first : Segment.commands (.command c :: rest) = c :: Segment.commands rest := rfl
    rw [runSegments, first, List.flatMap_cons, List.flatMap_append]
    exact (c.offers_run scope).bind fun _ => offers_runSegments scope rest

/-- A run of a body puts out some of its replies, those in blocks in front of its own. -/
theorem Body.offers_run (scope : Scope σ) (b : Body) : Offers b.offers (b.run scope) := by
  rw [Body.offers_eq]
  match b with
  | ⟨segments, replies⟩ =>
    rw [Body.run]
    exact (offers_runSegments scope segments).bind fun _ => offers_runReplies scope replies

end

/-- What a body comes to is a body without blocks whose replies are some of those of the body, each
with its number and its pointer. -/
theorem Body.shown_of_runFresh {scope : Scope σ} {b : Body} {trimmed : Bool} {vars : σ}
    {random : RandomSource} {stage : Stage σ}
    (ran : b.runFresh scope trimmed vars random = (.ok (), stage)) :
    stage.output.blocks = [] ∧
      (stage.output.replies.map Reply.mark).Sublist (b.offers.map Reply.mark) := by
  obtain ⟨shown, replies, blocks, order⟩ := b.offers_run scope ⟨vars, random, .empty⟩
  unfold Body.runFresh at ran
  cases outcome : b.run scope ⟨vars, random, .empty⟩ with
  | mk result last =>
    rw [outcome] at ran replies blocks
    have all : last.output.replies = shown := replies
    rw [← all] at order
    cases result with
    | error e => cases ran
    | ok u =>
      cases ran
      cases trimmed
      · exact ⟨blocks, order⟩
      · exact ⟨(Body.blocks_trim last.output).trans blocks, order⟩

theorem Body.shown_ids {scope : Scope σ} {b : Body} {trimmed : Bool} {vars : σ}
    {random : RandomSource} {stage : Stage σ}
    (ran : b.runFresh scope trimmed vars random = (.ok (), stage)) :
    (stage.output.replies.map (·.id)).Sublist (b.offers.map (·.id)) := by
  have ids := (shown_of_runFresh ran).2.map Prod.fst
  rwa [List.map_map, List.map_map] at ids

/-- Of a reply and a block behind it, the reply in the block is the one that is shown first. -/
theorem Body.shown_of_block_behind_reply :
    ∃ tokens b uses stage,
      Tokenizer.readText "[[A|Start]]\n<<if true>>\n[[B|Next]]\n<<endif>>\n" = .ok tokens ∧
      ofTokens "d" standardCommands tokens = .ok (b, uses) ∧
      b.runFresh Scope.plain true [] (.ofDraws []) = (.ok (), stage) ∧
      b.nested.length = 2 ∧ stage.output.replies.map (·.id) = [2, 1] := by
  have summary : (do
      let tokens ← (Tokenizer.readText
        "[[A|Start]]\n<<if true>>\n[[B|Next]]\n<<endif>>\n").toOption
      let read ← (ofTokens "d" standardCommands tokens).toOption
      let ran := read.1.runFresh Scope.plain true [] (.ofDraws [])
      ran.1.toOption
      return (read.1.nested.length, ran.2.output.replies.map (·.id))) = some (2, [2, 1]) := by
    decide +kernel
  simp only [bind, pure, Option.bind_eq_some_iff, toOption_eq_some_iff, Option.some.injEq,
    Prod.mk.injEq] at summary
  obtain ⟨tokens, cut, ⟨b, uses⟩, read, ⟨⟩, ran, two, ids⟩ := summary
  exact ⟨tokens, b, uses, _, cut, read, Prod.ext ran rfl, two, ids⟩

end Parley
