import Parley.Proofs.Body.Running
import Parley.Proofs.Template.Firm
import Parley.Proofs.Time.LocalTime

/-!
What a body comes to comes to itself: all that is put out has been settled, so that settling it
again under other variables changes nothing, and no command is left that reads, writes or draws.
-/
namespace Parley

/-- Whether settling leaves something as it is, whatever the variables are. -/
def IsFinal {α : Type} (resolve : α → (String → Option Value) → Except Failure α) (a : α) : Prop :=
  ∀ lookup, resolve a lookup = .ok a

theorem mapM_again {ε α : Type} {f g : α → Except ε α} {xs ys : List α}
    (settled : xs.mapM f = .ok ys) (again : ∀ x y, f x = .ok y → g y = .ok y) :
    ys.mapM g = .ok ys := by
  induction xs generalizing ys with
  | nil =>
    cases settled
    rfl
  | cons x rest ih =>
    rw [List.mapM_cons] at settled
    obtain ⟨y, first, settled⟩ := bind_eq_ok_iff.mp settled
    obtain ⟨others, later, settled⟩ := bind_eq_ok_iff.mp settled
    cases settled
    rw [List.mapM_cons, again x y first, ih later]
    rfl

/-! The parts of a body -/

theorem Template.resolve_again {t u : Template} {lookup : String → Option Value}
    (settled : t.resolve lookup = .ok u) : IsFinal resolve u :=
  resolve_of_isPlain (isPlain_of_resolve settled)

theorem Action.isFinal_of_resolve {a shown : Action} {lookup : String → Option Value}
    (settled : a.resolve lookup = .ok shown) : IsFinal resolve shown := by
  obtain ⟨value, text, settled⟩ := bind_eq_ok_iff.mp settled
  obtain ⟨parameters, texts, settled⟩ := bind_eq_ok_iff.mp settled
  cases settled
  intro again
  refine bind_eq_ok_iff.mpr ⟨value, Template.resolve_again text again, bind_eq_ok_iff.mpr
    ⟨parameters, mapM_again texts fun p q each => ?_, rfl⟩⟩
  obtain ⟨t, here, each⟩ := bind_eq_ok_iff.mp each
  cases each
  exact bind_eq_ok_iff.mpr ⟨t, Template.resolve_again here again, rfl⟩

namespace Input

theorem resolveTime_again {o shown : Option Template} {lookup : String → Option Value}
    (settled : resolveTime lookup o = .ok shown) (again : String → Option Value) :
    resolveTime again shown = .ok shown := by
  cases o with
  | none =>
    cases settled
    rfl
  | some t =>
    obtain ⟨text, _, settled⟩ := bind_eq_ok_iff.mp settled
    split at settled
    · rename_i time normal
      cases settled
      simp only [resolveTime, Template.evaluate_ofText, ok_bind,
        LocalTime.normalize_of_normalize normal]
    · cases settled

theorem isFinal_of_resolve {i shown : Input} {lookup : String → Option Value}
    (settled : i.resolve lookup = .ok shown) : IsFinal resolve shown := by
  obtain ⟨description, field⟩ := i
  intro again
  cases field with
  | choices options =>
    obtain ⟨labelled, labels, settled⟩ := bind_eq_ok_iff.mp settled
    cases settled
    have same : labelled.mapM (fun o => return { o with label := ← o.label.resolve again }) =
        Except.ok labelled := by
      refine mapM_again labels fun o p each => ?_
      obtain ⟨t, here, each⟩ := bind_eq_ok_iff.mp each
      cases each
      exact bind_eq_ok_iff.mpr ⟨t, Template.resolve_again here again, rfl⟩
    exact bind_eq_ok_iff.mpr ⟨labelled, same, rfl⟩
  | time target granularity times =>
    obtain ⟨start, first, settled⟩ := bind_eq_ok_iff.mp settled
    obtain ⟨least, second, settled⟩ := bind_eq_ok_iff.mp settled
    obtain ⟨most, third, settled⟩ := bind_eq_ok_iff.mp settled
    cases settled
    simp only [resolve, resolveTime_again first, resolveTime_again second,
      resolveTime_again third, ok_bind, pure_eq_ok]
  | email target | text target bounds rules | longText target bounds rules
  | numeric target bounds =>
    cases settled
    rfl

end Input

namespace Segment

variable {κ : Type} {fit : κ → Prop}

/-- Whether text is plain, and a command of a kind. -/
def Settled (fit : κ → Prop) : Segment κ → Prop
  | text t => t.isPlain
  | command c => fit c

/-- Whether all that stands in segments is settled, and no text beside other text. -/
structure Final (fit : κ → Prop) (segments : List (Segment κ)) : Prop where
  each : ∀ s ∈ segments, s.Settled fit
  apart : segments.IsChain fun s u => s.isText = false ∨ u.isText = false

/-- What is added at the end is joined to the last text or stands behind all others. -/
theorem push_cases (segments : List (Segment κ)) (s : Segment κ) :
    (∃ front t u, segments = front ++ [text t] ∧ s = text u ∧
      push segments s = front ++ [text (t ++ u)]) ∨
    (push segments s = segments ++ [s] ∧
      ∀ last ∈ segments.getLast?, last.isText = false ∨ s.isText = false) := by
  fun_induction push segments s with
  | case1 s => exact .inr ⟨rfl, by simp⟩
  | case2 t u => exact .inl ⟨[], t, u, rfl, rfl, rfl⟩
  | case3 first rest s other ih =>
    rcases ih with ⟨front, t, u, rfl, rfl, joined⟩ | ⟨behind, apart⟩
    · exact .inl ⟨first :: front, t, u, rfl, rfl, by rw [joined, List.cons_append]⟩
    · refine .inr ⟨by rw [behind, List.cons_append], fun last member => ?_⟩
      cases rest with
      | cons second more => exact apart last (by simpa using member)
      | nil =>
        obtain rfl : first = last := by simpa using member
        cases first with
        | command c => exact .inl rfl
        | text t =>
          cases s with
          | command c => exact .inr rfl
          | text u => exact (other t u rfl rfl rfl).elim

theorem push_of_apart {segments : List (Segment κ)} {s : Segment κ}
    (apart : (segments ++ [s]).IsChain fun s u => s.isText = false ∨ u.isText = false) :
    push segments s = segments ++ [s] := by
  rcases push_cases segments s with ⟨front, t, u, rfl, rfl, _⟩ | ⟨behind, _⟩
  · rw [List.append_assoc] at apart
    have beside := (List.isChain_append.mp apart).2.1
    simp [isText] at beside
  · exact behind

namespace Final

theorem nil : Final fit ([] : List (Segment κ)) := ⟨by simp, List.isChain_nil⟩

theorem push {segments : List (Segment κ)} {s : Segment κ} (final : Final fit segments)
    (settled : s.Settled fit) : Final fit (Segment.push segments s) := by
  obtain ⟨each, apart⟩ := final
  rcases push_cases segments s with ⟨front, t, u, rfl, rfl, joined⟩ | ⟨behind, last⟩
  · rw [joined]
    obtain ⟨before, _, beside⟩ := List.isChain_append.mp apart
    constructor
    · intro other member
      rcases List.mem_append.mp member with earlier | joint
      · exact each other (List.mem_append_left _ earlier)
      · rw [List.mem_singleton.mp joint]
        exact Template.isPlain_append (each (text t) (by simp)) settled
    · refine List.isChain_append.mpr ⟨before, List.isChain_singleton _, ?_⟩
      simpa [isText] using beside
  · rw [behind]
    constructor
    · intro other member
      rcases List.mem_append.mp member with earlier | added
      · exact each other earlier
      · rwa [List.mem_singleton.mp added]
    · refine List.isChain_append.mpr ⟨apart, List.isChain_singleton _, ?_⟩
      simpa using last

theorem reverse {segments : List (Segment κ)} (final : Final fit segments) :
    Final fit segments.reverse := by
  refine ⟨fun s member => final.each s (List.mem_reverse.mp member), ?_⟩
  rw [List.isChain_reverse]
  exact final.apart.imp fun s u beside => beside.symm

theorem tail {s : Segment κ} {rest : List (Segment κ)} (final : Final fit (s :: rest)) :
    Final fit rest :=
  ⟨fun u member => final.each u (List.mem_cons_of_mem s member), final.apart.tail⟩

/-- Another text may stand in the place of a text. -/
theorem text {t u : Template} {rest : List (Segment κ)} (final : Final fit (.text t :: rest))
    (plain : u.isPlain) : Final fit (.text u :: rest) := by
  constructor
  · intro s member
    rcases List.mem_cons.mp member with rfl | later
    · exact plain
    · exact final.tail.each s later
  · exact List.isChain_cons.mpr (List.isChain_cons.mp final.apart)

theorem trimBy {shorten : Template → Template} (kept : ∀ {t}, t.isPlain → (shorten t).isPlain)
    {segments : List (Segment κ)} (final : Final fit segments) :
    Final fit (Segment.trimBy shorten segments) := by
  fun_induction Segment.trimBy shorten segments with
  | case1 t rest empty ih => exact ih final.tail
  | case2 t rest some => exact final.text (kept (final.each (.text t) List.mem_cons_self))
  | case3 segments other => exact final

theorem trim {segments : List (Segment κ)} (final : Final fit segments) :
    Final fit (Segment.trim segments) := by
  rw [Segment.trim_eq]
  exact ((final.trimBy Template.isPlain_trimStart).reverse.trimBy Template.isPlain_trimEnd).reverse

end Final
end Segment

namespace Reply

theorem final_of_resolveStatement {done segments shown : List (Segment Input)}
    {lookup : String → Option Value} (final : Segment.Final (IsFinal Input.resolve) done)
    (settled : resolveStatement lookup done segments = .ok shown) :
    Segment.Final (IsFinal Input.resolve) shown := by
  fun_induction resolveStatement lookup done segments with
  | case1 done =>
    cases settled
    exact final
  | case2 done t rest ih =>
    obtain ⟨u, text, settled⟩ := bind_eq_ok_iff.mp settled
    exact ih u (final.push (Template.isPlain_of_resolve text)) settled
  | case3 done i rest ih =>
    obtain ⟨j, input, settled⟩ := bind_eq_ok_iff.mp settled
    exact ih j (final.push (Input.isFinal_of_resolve input)) settled

theorem resolveStatement_of_final {done segments : List (Segment Input)}
    (lookup : String → Option Value)
    (final : Segment.Final (IsFinal Input.resolve) (done ++ segments)) :
    resolveStatement lookup done segments = .ok (done ++ segments) := by
  induction segments generalizing done with
  | nil => rw [resolveStatement, List.append_nil]
  | cons s rest ih =>
    have settled := final.each s (by simp)
    rw [List.append_cons] at final ⊢
    have behind := Segment.push_of_apart (List.isChain_append.mp final.apart).1
    cases s with
    | text t =>
      rw [resolveStatement, Template.resolve_of_isPlain settled, ok_bind, behind]
      exact ih final
    | command i =>
      rw [resolveStatement, settled lookup, ok_bind, Segment.pushCommand, behind]
      exact ih final

theorem resolveCommand_again {c shown : ReplyCommand} {lookup : String → Option Value}
    (settled : resolveCommand lookup c = .ok shown) (again : String → Option Value) :
    resolveCommand again shown = .ok shown := by
  cases c with
  | action a =>
    obtain ⟨b, action, rfl⟩ := map_eq_ok_iff.mp settled
    exact map_eq_ok_iff.mpr ⟨b, Action.isFinal_of_resolve action again, rfl⟩
  | set s =>
    cases settled
    rfl

theorem isFinal_of_resolve {r shown : Reply} {lookup : String → Option Value}
    (settled : r.resolve lookup = .ok shown) : IsFinal resolve shown := by
  obtain ⟨_, _, said, done⟩ := resolve_eq_ok settled
  intro again
  have statement : shown.statement.mapM (resolveStatement again []) = .ok shown.statement := by
    cases before : r.statement with
    | none =>
      rw [before] at said
      rw [← Except.ok.inj said]
      rfl
    | some segments =>
      rw [before] at said
      obtain ⟨resolved, run, after⟩ := map_eq_ok_iff.mp said
      rw [← after]
      have final := final_of_resolveStatement Segment.Final.nil run
      exact map_eq_ok_iff.mpr ⟨resolved, resolveStatement_of_final again final, rfl⟩
  have commands : shown.commands.mapM (resolveCommand again) = .ok shown.commands :=
    mapM_again done fun c d each => resolveCommand_again each again
  rw [resolve_eq, statement, ok_bind, commands]
  rfl

end Reply

/-! The body -/

/-- Whether a command has been put out by a run: it shows something that has been settled. -/
def Command.IsShown : Command → Prop
  | .action a => IsFinal Action.resolve a
  | .input i => IsFinal Input.resolve i
  | _ => False

/-- Whether a body has been put out by a run. -/
structure Body.Final (b : Body) : Prop where
  segments : Segment.Final Command.IsShown b.segments
  replies : ∀ r ∈ b.replies, IsFinal Reply.resolve r

section Output

variable {σ α : Type} {scope : Scope σ}

theorem keeps_final_of_same {m : Run (Stage σ) α}
    (same : ∀ stage, (m stage).2.output = stage.output) :
    Run.Keeps (fun stage => stage.output.Final) m := by
  intro stage final
  rwa [same]

theorem keeps_final_of_add {f : (String → Option Value) → Except Failure α} {g : α → Body → Body}
    (adds : ∀ lookup a b, f lookup = .ok a → b.Final → (g a b).Final) :
    Run.Keeps (fun stage => stage.output.Final) (do
      let settled ← settle scope f
      Stage.onOutput (g settled) : Run (Stage σ) Unit) := by
  intro stage final
  rw [Run.bind_apply, settle_apply]
  cases outcome : f fun name => scope.read name stage.vars with
  | error e => exact final
  | ok a => exact adds _ a stage.output outcome final

/-- Each step of a run puts out what is final, or nothing. -/
theorem final_passes (scope : Scope σ) :
    Body.Law.Passes {} scope fun _ m => Run.Keeps (fun stage => stage.output.Final) m where
  pure _ := Run.keeps_pure
  bind _ _ _ _ := Run.keeps_bind
  text t _ := keeps_final_of_add fun _ _ _ settled final =>
    ⟨final.segments.push (Template.isPlain_of_resolve settled), final.replies⟩
  action a _ := keeps_final_of_add fun _ _ _ settled final =>
    ⟨final.segments.push (Action.isFinal_of_resolve settled), final.replies⟩
  input i _ := keeps_final_of_add fun _ _ _ settled final =>
    ⟨final.segments.push (Input.isFinal_of_resolve settled), final.replies⟩
  reply r _ := keeps_final_of_add fun _ shown b settled final => by
    refine ⟨final.segments, fun other member => ?_⟩
    rcases List.mem_append.mp member with earlier | last
    · exact final.replies other earlier
    · rw [List.mem_singleton.mp last]
      exact Reply.isFinal_of_resolve settled
  set s _ := keeps_final_of_same fun _ => rfl
  condition e _ := keeps_final_of_same fun _ => rfl
  number x := Run.keeps_ofExcept x
  draw := keeps_final_of_same fun _ => rfl

theorem runSegments_of_final {stage : Stage σ} {segments : List (Segment Command)}
    (final : Segment.Final Command.IsShown (stage.output.segments ++ segments)) :
    runSegments scope segments stage =
      (.ok (), { stage with
        output := ⟨stage.output.segments ++ segments, stage.output.replies⟩ }) := by
  induction segments generalizing stage with
  | nil =>
    obtain ⟨vars, random, ⟨before, replies⟩⟩ := stage
    rw [runSegments, Run.pure_apply, List.append_nil]
  | cons s rest ih =>
    have settled := final.each s (by simp)
    rw [List.append_cons] at final ⊢
    have behind := Segment.push_of_apart (List.isChain_append.mp final.apart).1
    rw [← behind] at final ⊢
    cases s with
    | text t =>
      rw [runSegments_text, Run.bind_apply, showText, Run.bind_apply, settle_apply,
        Template.resolve_of_isPlain settled]
      exact ih final
    | command c =>
      cases c with
      | action a =>
        rw [runSegments, Command.run, settle_bind, Run.bind_apply, Run.bind_apply, settle_apply,
          settled]
        exact ih final
      | input i =>
        rw [runSegments, Command.run, settle_bind, Run.bind_apply, Run.bind_apply, settle_apply,
          settled]
        exact ih final
      | set s => exact settled.elim
      | choice clauses otherwise => exact settled.elim
      | random clauses => exact settled.elim

theorem runReplies_of_final {stage : Stage σ} {replies : List Reply}
    (final : ∀ r ∈ replies, IsFinal Reply.resolve r) :
    runReplies scope replies stage =
      (.ok (), { stage with
        output := ⟨stage.output.segments, stage.output.replies ++ replies⟩ }) := by
  induction replies generalizing stage with
  | nil =>
    obtain ⟨vars, random, ⟨segments, before⟩⟩ := stage
    rw [runReplies, Run.pure_apply, List.append_nil]
  | cons r rest ih =>
    rw [runReplies_cons, Run.bind_apply, showReply, Run.bind_apply, settle_apply,
      final r List.mem_cons_self, List.append_cons]
    exact ih fun other member => final other (List.mem_cons_of_mem r member)

/-- A body that has been put out runs to itself and leaves everything else as it is. -/
theorem Body.runFresh_of_final {b : Body} (final : b.Final) (trimmed : b.trim = b) (vars : σ)
    (random : RandomSource) :
    b.runFresh scope true vars random = (.ok (), ⟨vars, random, b⟩) := by
  obtain ⟨segments, replies⟩ := b
  have first : runSegments scope segments ⟨vars, random, .empty⟩ =
      (.ok (), ⟨vars, random, ⟨segments, []⟩⟩) := runSegments_of_final final.segments
  have whole : Body.run scope ⟨segments, replies⟩ ⟨vars, random, .empty⟩ =
      (.ok (), ⟨vars, random, ⟨segments, replies⟩⟩) := by
    rw [Body.run, Run.bind_apply, first, Run.andThen_ok, runReplies_of_final final.replies]
    rfl
  unfold Body.runFresh
  rw [whole]
  exact congrArg (fun output => (Except.ok (), Stage.mk vars random output)) trimmed

end Output

namespace Body

theorem kept_nothing (dialogue : String) (allowed : List String) (uses : List PointerUse) :
    Law.Kept {} dialogue allowed (fun _ => True) uses := by
  constructor <;> intros <;> trivial

/-- What a body comes to is final, and has been trimmed. -/
theorem final_of_runFresh {σ : Type} {dialogue : String} {allowed : List String}
    {tokens : List Token} {b : Body} {uses : List PointerUse} {scope : Scope σ} {vars : σ}
    {random : RandomSource} {stage : Stage σ}
    (read : ofTokens dialogue allowed tokens = .ok (b, uses))
    (ran : b.runFresh scope true vars random = (.ok (), stage)) :
    stage.output.Final ∧ stage.output.trim = stage.output := by
  have meets := meets_of_ofTokens (kept_nothing dialogue allowed uses) (fun _ _ => trivial) read
  have start : empty.Final := ⟨Segment.Final.nil, by simp [empty]⟩
  have last := b.run_passed (final_passes scope) meets ⟨vars, random, empty⟩ start
  unfold runFresh at ran
  cases outcome : b.run scope ⟨vars, random, empty⟩ with
  | mk result after =>
    rw [outcome] at ran last
    cases result with
    | error e => cases ran
    | ok u =>
      cases ran
      refine ⟨⟨last.segments.trim, last.replies⟩, ?_⟩
      exact congrArg (Body.mk · after.output.replies) (Segment.trim_idempotent _)

/-- What a body comes to comes to itself, whatever the variables and the random numbers are, and
neither writes a variable nor draws a number. -/
theorem runs_again_to_itself {σ τ : Type} {dialogue : String} {allowed : List String}
    {tokens : List Token} {b : Body} {uses : List PointerUse} {scope : Scope σ} {vars : σ}
    {random : RandomSource} {stage : Stage σ}
    (read : ofTokens dialogue allowed tokens = .ok (b, uses))
    (ran : b.runFresh scope true vars random = (.ok (), stage))
    (others : Scope τ) (again : τ) (draws : RandomSource) :
    stage.output.runFresh others true again draws = (.ok (), ⟨again, draws, stage.output⟩) := by
  obtain ⟨final, trimmed⟩ := final_of_runFresh read ran
  exact runFresh_of_final final trimmed again draws

/-- Text of a variable that looks like a variable stands for itself when the body is run again. -/
theorem runs_again_to_itself_of_greeting :
    ∃ tokens b uses stage,
      Tokenizer.readText "<<set $n = \"$n \">>Hi $n\n[[I am $n|Start]]\n" = .ok tokens ∧
      ofTokens "d" standardCommands tokens = .ok (b, uses) ∧
      b.runFresh Scope.plain true [] (.ofDraws []) = (.ok (), stage) ∧
      stage.output.text = "Hi $n" ∧
      stage.output.runFresh Scope.none true () (.ofDraws []) =
        (.ok (), ⟨(), .ofDraws [], stage.output⟩) := by
  have summary : (do
      let tokens ← (Tokenizer.readText
        "<<set $n = \"$n \">>Hi $n\n[[I am $n|Start]]\n").toOption
      let read ← (ofTokens "d" standardCommands tokens).toOption
      let ran := read.1.runFresh Scope.plain true [] (.ofDraws [])
      return (ran.1.toOption, ran.2.output.text)) = some (some (), "Hi $n") := by
    decide +kernel
  simp only [bind, pure, Option.bind_eq_some_iff, toOption_eq_some_iff, Option.some.injEq,
    Prod.mk.injEq] at summary
  obtain ⟨tokens, cut, ⟨b, uses⟩, read, ran, text⟩ := summary
  exact ⟨tokens, b, uses, _, cut, read, Prod.ext ran rfl, text,
    runs_again_to_itself read (Prod.ext ran rfl) _ _ _⟩

end Body
end Parley
