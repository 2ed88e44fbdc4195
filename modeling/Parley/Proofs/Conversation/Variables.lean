import Parley.Proofs.Body.Influence
import Parley.Proofs.Conversation.Turn
import Parley.Proofs.Store.Quiet

/-!
A conversation turns on no variables but those that a script declares: two users for whom these are
the same are shown the same, and what it leaves in their variables differs from what was there
before under the declared names only.
-/
namespace Parley

namespace Scope

variable {σ ρ : Type}

/-- Whether two runs come to the same result and change their states, which were `s` and `t`, by the
same writes to some names, so that other names keep their values and those written end with equal
ones. -/
def RunAlike (scope : Scope σ) (writes : List String) (s t : σ) (left right : ρ × σ) : Prop :=
  left.1 = right.1 ∧
    ∃ made : List (String × Value), (∀ w ∈ made, w.1 ∈ writes) ∧
      left.2 = scope.perform made s ∧ right.2 = scope.perform made t ∧
        (∀ name, (∀ w ∈ made, w.1 ≠ name) →
          scope.read name left.2 = scope.read name s ∧
            scope.read name right.2 = scope.read name t) ∧
        ∀ w ∈ made, scope.read w.1 left.2 = scope.read w.1 right.2

theorem Lawful.runAlike {scope : Scope σ} {steady : σ → Prop} (lawful : scope.Lawful steady)
    {writes : List String} {s t : σ} (calm : steady s) (calm' : steady t) (result : ρ)
    {made : List (String × Value)} (among : ∀ w ∈ made, w.1 ∈ writes) :
    scope.RunAlike writes s t (result, scope.perform made s) (result, scope.perform made t) := by
  refine ⟨rfl, made, among, rfl, rfl, ?_, ?_⟩
  · intro name other
    exact ⟨lawful.read_perform_other calm other, lawful.read_perform_other calm' other⟩
  · intro w member
    exact lawful.read_perform_eq calm calm' (.inl ⟨w, member, rfl⟩)

end Scope

namespace Body

variable {σ : Type}

/-- The result of a run, what it has put out and the random numbers it has left, and apart from
these its variables. -/
def outcome (scope : Scope σ) (b : Body) (trimmed : Bool) (random : RandomSource) (vars : σ) :
    (Except Failure Unit × Body × RandomSource) × σ :=
  let (result, stage) := b.runFresh scope trimmed vars random
  ((result, stage.output, stage.random), stage.vars)

theorem outcome_alike {scope : Scope σ} {steady : σ → Prop} (lawful : scope.Lawful steady)
    {b : Body} {reads writes : List String}
    (confined : Stage.Confined scope steady reads writes (b.run scope)) (trimmed : Bool)
    (random : RandomSource) {s t : σ} (calm : steady s) (calm' : steady t)
    (agree : scope.Agree reads s t) :
    scope.RunAlike writes s t (b.outcome scope trimmed random s)
      (b.outcome scope trimmed random t) := by
  obtain ⟨made, result, next, shown, among, left, right⟩ :=
    confined s t random .empty calm calm' agree
  have alike (output : Body) := lawful.runAlike calm calm' (result, output, next) among
  unfold outcome runFresh
  rw [left, right]
  cases result with
  | error e => exact alike shown
  | ok u =>
    cases trimmed
    · exact alike shown
    · exact alike shown.trim

end Body

namespace Talking

variable {origin : Origin} {reads writes : List String}

/-- The assignments of a reply are confined to the variables that it declares. -/
theorem confined_runReplyCommands {commands : List ReplyCommand}
    (quiet : ∀ s, ReplyCommand.set s ∈ commands → s.value.assigns = false)
    (read : commands.flatMap (·.reads) ⊆ reads) (written : commands.flatMap (·.writes) ⊆ writes) :
    Run.Confined (LiveStore.scope origin) (LiveStore.Quiet origin) reads writes
      (runReplyCommands (LiveStore.scope origin) commands) := by
  have lawful := LiveStore.scope_lawful origin
  induction commands with
  | nil => exact Run.confined_pure ()
  | cons c rest ih =>
    have reads := List.append_subset.mp read
    have writes := List.append_subset.mp written
    have later := ih (fun s member => quiet s (by simp [member])) reads.2 writes.2
    cases c with
    | action a => exact later
    | set s =>
      rw [runReplyCommands]
      refine Run.confined_bind lawful (Expr.confined_assign lawful ?_ (writes.1 (by
        simp [ReplyCommand.writes]))) fun _ => later
      exact Expr.confined_eval_of_not_assigns lawful (quiet s (by simp)) reads.1

/-- Settling the texts of a reply leaves its assignments as they are. -/
theorem runReplyCommands_resolve {lookup : String → Option Value}
    {commands resolved : List ReplyCommand}
    (settled : commands.mapM (Reply.resolveCommand lookup) = .ok resolved)
    (scope : Scope LiveStore) :
    runReplyCommands scope resolved = runReplyCommands scope commands := by
  induction commands generalizing resolved with
  | nil => cases settled; rfl
  | cons c rest ih =>
    rw [List.mapM_cons, bind_eq_ok_iff] at settled
    obtain ⟨first, one, settled⟩ := settled
    rw [bind_eq_ok_iff] at settled
    obtain ⟨others, later, settled⟩ := settled
    cases settled
    cases c with
    | set s =>
      cases one
      simp only [runReplyCommands, ih later]
    | action a =>
      obtain ⟨b, _, rfl⟩ := map_eq_ok_iff.mp one
      simp only [runReplyCommands, ih later]

/-- The result of a turn and the conversation that it leaves, and apart from these the store. -/
def apart {α : Type} (outcome : Except TalkError α × Talk) :
    (Except TalkError α × Conversation) × LiveStore :=
  ((outcome.1, outcome.2.conversation), outcome.2.store)

/-- A reply that a conversation shows is resolved alike for two users for whom the variables are the
same that the reply reads in the script. -/
theorem resolveReply_alike {r shown : Reply} {lookup : String → Option Value}
    (quiet : ∀ s, ReplyCommand.set s ∈ r.commands → s.value.assigns = false)
    (settled : r.resolve lookup = .ok shown) {c : Conversation} {id : Int} {time : Option Instant}
    (found : c.findReply id = .ok shown) {s t : LiveStore}
    (calm : LiveStore.Quiet (c.scriptOrigin time) s)
    (calm' : LiveStore.Quiet (c.scriptOrigin time) t)
    (agree : (c.liveScope time).Agree r.reads s t) :
    (c.liveScope time).RunAlike r.writes s t (apart (resolveReply id time ⟨c, s⟩))
      (apart (resolveReply id time ⟨c, t⟩)) := by
  have confined : Run.Confined (c.liveScope time) (LiveStore.Quiet (c.scriptOrigin time)) r.reads
      r.writes (runReplyCommands (c.liveScope time) r.commands) :=
    confined_runReplyCommands quiet (List.subset_append_right _ _) (List.subset_append_right _ _)
  obtain ⟨made, result, among, left, right⟩ := confined s t calm calm' agree
  rw [resolveReply_apply, resolveReply_apply, found]
  dsimp only
  rw [runReplyCommands_resolve (Reply.resolve_eq_ok settled).2.2.2, left, right]
  exact (LiveStore.scope_lawful _).runAlike calm calm' (_, c) among

end Talking

/-- Every body that can be read is sound in the variables that it declares. Whether it runs on plain
variables or on a store that no listener interferes with, two runs on variables that agree on what
the body reads, with the same random numbers, end alike: with the same failure or success, the same
output and the same random numbers left, after the same writes to none but the names that the body
writes. The same is true of the assignments of each of its replies when that reply is resolved, with
what that reply reads and writes. -/
theorem runs_turn_on_declared_variables {dialogue : String} {allowed : List String}
    {tokens : List Token} {b : Body} {uses : List PointerUse}
    (read : Body.ofTokens dialogue allowed tokens = .ok (b, uses)) :
    (∀ trimmed random (s t : Bindings), Scope.plain.Agree b.reads s t →
      Scope.plain.RunAlike b.writes s t (b.outcome .plain trimmed random s)
        (b.outcome .plain trimmed random t)) ∧
    (∀ origin trimmed random (s t : LiveStore), LiveStore.Quiet origin s →
      LiveStore.Quiet origin t → (LiveStore.scope origin).Agree b.reads s t →
      (LiveStore.scope origin).RunAlike b.writes s t
        (b.outcome (LiveStore.scope origin) trimmed random s)
        (b.outcome (LiveStore.scope origin) trimmed random t)) ∧
    ∀ r ∈ b.nested, ∀ lookup shown, r.resolve lookup = .ok shown →
      ∀ (c : Conversation) id time (s t : LiveStore), c.findReply id = .ok shown →
        LiveStore.Quiet (c.scriptOrigin time) s → LiveStore.Quiet (c.scriptOrigin time) t →
        (c.liveScope time).Agree r.reads s t →
        (c.liveScope time).RunAlike r.writes s t
          (Talking.apart (Talking.resolveReply id time ⟨c, s⟩))
          (Talking.apart (Talking.resolveReply id time ⟨c, t⟩)) := by
  have quiet : b.Meets Body.Law.quiet :=
    Body.meets_of_ofTokens Body.quiet_kept (fun _ _ => trivial) read
  refine ⟨?_, ?_, ?_⟩
  · intro trimmed random s t agree
    exact Body.outcome_alike Scope.plain_lawful
      (Body.confined_of_ofTokens Scope.plain_lawful read) trimmed random trivial trivial agree
  · intro origin trimmed random s t calm calm' agree
    have lawful := LiveStore.scope_lawful origin
    exact Body.outcome_alike lawful (Body.confined_of_ofTokens lawful read) trimmed random calm
      calm' agree
  · intro r member lookup shown settled c id time s t found calm calm' agree
    exact Talking.resolveReply_alike (Body.replies_of_meets quiet r member) settled found calm
      calm' agree

/-- A greeting that depends on a name alone, whatever else is known, and whose reply changes one
more variable. -/
theorem greeting_turns_on_declared_variables :
    ∃ tokens b uses, Body.ofTokens "d" Body.standardCommands tokens = .ok (b, uses) ∧
      Tokenizer.readText "Hi $name<<set $met = 1>>[[Sure.|End|<<set $left = $met>>]]" = .ok tokens ∧
      b.reads = ["name", "met"] ∧ b.writes = ["met", "left"] ∧
      (let s : Bindings := [("name", .text "Ann"), ("other", .int 1)]
       let t : Bindings := [("name", .text "Ann")]
       ∀ random, Scope.plain.RunAlike b.writes s t (b.outcome .plain true random s)
         (b.outcome .plain true random t)) ∧
      ∃ r shown, r ∈ b.nested ∧ r.writes = ["left"] ∧ r.resolve (fun _ => none) = .ok shown ∧
        let c : Conversation :=
          ⟨⟨"d", []⟩, .ofSeed 1, false, .active, some ⟨⟨"Start", none, []⟩, ⟨[], [shown]⟩⟩⟩
        let s : LiveStore := .ofStore (.ofVariables ⟨"Ann", "UTC"⟩ []) 0 []
        let t : LiveStore :=
          .ofStore (.ofVariables ⟨"Ann", "UTC"⟩ [⟨"other", .int 1, 0, "UTC"⟩]) 0 []
        (c.liveScope none).RunAlike r.writes s t
          (Talking.apart (Talking.resolveReply shown.id none ⟨c, s⟩))
          (Talking.apart (Talking.resolveReply shown.id none ⟨c, t⟩)) := by
  let text := "Hi $name<<set $met = 1>>[[Sure.|End|<<set $left = $met>>]]"
  have summary : (do
      let tokens ← (Tokenizer.readText text).toOption
      let b ← (Body.ofTokens "d" Body.standardCommands tokens).toOption.map Prod.fst
      let shown ← b.nested.mapM fun r => (r.resolve fun _ => none).toOption
      return (b.reads, b.writes, b.nested.map Reply.reads, b.nested.map Reply.writes,
        shown.length)) =
        some (["name", "met"], ["met", "left"], [["met"]], [["left"]], 1) := by
    decide +kernel
  simp only [bind, pure, Option.bind_eq_some_iff, Option.map_eq_some_iff, toOption_eq_some_iff,
    Option.some.injEq, Prod.mk.injEq] at summary
  obtain ⟨tokens, cut, _, ⟨⟨b, uses⟩, parsed, rfl⟩, all, settled, reads, writes, replyReads,
    replyWrites, single⟩ := summary
  obtain ⟨plain, _, replies⟩ := runs_turn_on_declared_variables parsed
  obtain ⟨r, nested, left⟩ := List.map_eq_singleton_iff.mp replyWrites
  have readsLeft : r.reads = ["met"] := by
    rw [nested] at replyReads
    simpa using replyReads
  cases resolved : r.resolve fun _ => none with
  | error e =>
    rw [nested] at settled
    simp [resolved, Except.toOption] at settled
  | ok shown =>
    refine ⟨tokens, b, uses, parsed, cut, reads, writes, fun random => ?_, r, shown,
      by simp [nested], left, resolved, ?_⟩
    · apply plain
      rw [reads]
      simp [Scope.Agree, Scope.plain, Assoc.get?]
    · have found : [shown].find? (fun s => (s.id : Int) == shown.id) = some shown := by simp
      refine replies r (by simp [nested]) _ shown resolved _ shown.id none _ _ ?_ (.inl rfl)
        (.inl rfl) ?_
      · exact Conversation.findReply_eq_ok_iff.mpr ⟨_, rfl, found⟩
      · rw [readsLeft]
        simp [Scope.Agree, Conversation.liveScope, LiveStore.scope, LiveStore.ofStore,
          Store.ofVariables, Store.value?, Store.get?, Assoc.ofList, Assoc.insertAll,
          Assoc.insert, Assoc.get?]

end Parley
