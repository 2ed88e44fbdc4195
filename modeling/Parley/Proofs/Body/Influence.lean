import Parley.Proofs.Body.Running
import Parley.Proofs.Expr.Influence

/-!
The declared variables of a body tell all about its run: on variables that agree on what the body
reads it goes the same way, and it changes nothing but what the body writes.
-/
namespace Parley

/-! Lookups that agree on some names -/

section Lookup

variable {reads : List String} {lookup lookup' : String → Option Value}

theorem Template.evaluate_congr {t : Template} (within : t.reads ⊆ reads)
    (agree : ∀ name ∈ reads, lookup name = lookup' name) :
    t.evaluate lookup = t.evaluate lookup' := by
  have parts : ∀ part ∈ t.parts, partText lookup part = partText lookup' part := by
    intro part member
    cases part with
    | literal text => rfl
    | var name =>
      have read : name ∈ t.reads := List.mem_filterMap.mpr ⟨.var name, member, rfl⟩
      simp only [partText, agree name (within read)]
  unfold evaluate
  rw [mapM_congr parts]

theorem Template.resolve_congr {t : Template} (within : t.reads ⊆ reads)
    (agree : ∀ name ∈ reads, lookup name = lookup' name) :
    t.resolve lookup = t.resolve lookup' := by
  unfold resolve
  rw [evaluate_congr within agree]

theorem Action.resolve_congr {a : Action} (within : a.reads ⊆ reads)
    (agree : ∀ name ∈ reads, lookup name = lookup' name) :
    a.resolve lookup = a.resolve lookup' := by
  have split := List.append_subset.mp within
  unfold resolve
  rw [Template.resolve_congr split.1 agree, mapM_congr]
  intro p member
  have inside : p.2.reads ⊆ reads := fun name read =>
    split.2 (List.mem_flatMap.mpr ⟨p, member, read⟩)
  dsimp only
  rw [Template.resolve_congr inside agree]

theorem Input.resolveTime_congr {time : Option Template}
    (within : ∀ t ∈ time, t.reads ⊆ reads) (agree : ∀ name ∈ reads, lookup name = lookup' name) :
    resolveTime lookup time = resolveTime lookup' time := by
  cases time with
  | none => rfl
  | some t =>
    simp only [resolveTime, Template.evaluate_congr (within t rfl) agree]

theorem Input.resolve_congr {i : Input} (within : i.reads ⊆ reads)
    (agree : ∀ name ∈ reads, lookup name = lookup' name) :
    i.resolve lookup = i.resolve lookup' := by
  obtain ⟨description, field⟩ := i
  cases field with
  | choices options =>
    have same : ∀ o ∈ options,
        (do return { o with label := ← o.label.resolve lookup } : Except Failure Choice) =
          (do return { o with label := ← o.label.resolve lookup' }) := by
      intro o member
      rw [Template.resolve_congr (fun name read => within ?_) agree]
      exact List.mem_flatMap.mpr ⟨o, member, read⟩
    unfold resolve
    dsimp only
    rw [mapM_congr same]
  | time target granularity times =>
    have each (time : Option Template) (member : ∀ t ∈ time, t ∈ times.templates) :
        resolveTime lookup time = resolveTime lookup' time := by
      refine resolveTime_congr (fun t given name read => within ?_) agree
      exact List.mem_flatMap.mpr ⟨t, member t given, read⟩
    unfold resolve
    dsimp only
    rw [each times.start, each times.least, each times.most]
    all_goals
      intro t given
      simp_all [ClockTimes.templates, ClockTimes.entries]
  | _ => rfl

theorem Reply.resolveStatement_congr {segments done : List (Segment Input)}
    (within : Segment.names Template.reads Input.reads segments ⊆ reads)
    (agree : ∀ name ∈ reads, lookup name = lookup' name) :
    resolveStatement lookup done segments = resolveStatement lookup' done segments := by
  induction segments generalizing done with
  | nil => rfl
  | cons s rest ih =>
    cases s with
    | text t =>
      have split := List.append_subset.mp within
      simp only [resolveStatement, Template.resolve_congr split.1 agree, ih split.2]
    | command i =>
      have split := List.append_subset.mp within
      simp only [resolveStatement, Input.resolve_congr split.1 agree, ih split.2]

theorem Reply.resolve_congr {r : Reply} (within : r.reads ⊆ reads)
    (agree : ∀ name ∈ reads, lookup name = lookup' name) :
    r.resolve lookup = r.resolve lookup' := by
  obtain ⟨id, statement, pointer, commands⟩ := r
  have split := List.append_subset.mp within
  have each : ∀ c ∈ commands, resolveCommand lookup c = resolveCommand lookup' c := by
    intro c member
    cases c with
    | set s => rfl
    | action a =>
      have inside : a.reads ⊆ reads := fun name read =>
        split.2 (List.mem_flatMap.mpr ⟨.action a, member, read⟩)
      simp only [resolveCommand, Action.resolve_congr inside agree]
  unfold resolve
  dsimp only
  rw [mapM_congr each]
  cases statement with
  | none => rfl
  | some segments =>
    have said : Segment.names Template.reads Input.reads segments ⊆ reads := split.1
    simp only [resolveStatement_congr said agree]

end Lookup

namespace Stage

variable {σ α β : Type}

/-- Whether what is done on a stage depends on some of the variables alone, besides random numbers
and output, and writes to no others than some. -/
def Confined (scope : Scope σ) (steady : σ → Prop) (reads writes : List String)
    (m : Run (Stage σ) α) : Prop :=
  ∀ s t random output, steady s → steady t → scope.Agree reads s t →
    ∃ (made : List (String × Value)) (result : Except Failure α) (next : RandomSource)
      (shown : Body), (∀ w ∈ made, w.1 ∈ writes) ∧
        m ⟨s, random, output⟩ = (result, ⟨scope.perform made s, next, shown⟩) ∧
          m ⟨t, random, output⟩ = (result, ⟨scope.perform made t, next, shown⟩)

variable {scope : Scope σ} {steady : σ → Prop} {reads writes : List String}

theorem confined_pure (a : α) : Confined scope steady reads writes (pure a : Run (Stage σ) α) :=
  fun _ _ random output _ _ _ => ⟨[], .ok a, random, output, by simp, rfl, rfl⟩

theorem confined_ofExcept (x : Except Failure α) :
    Confined scope steady reads writes (Run.ofExcept x : Run (Stage σ) α) := by
  intro s t random output _ _ _
  exact ⟨[], x, random, output, by simp, Run.ofExcept_apply x _, Run.ofExcept_apply x _⟩

theorem confined_bind (lawful : scope.Lawful steady) {x : Run (Stage σ) α}
    {f : α → Run (Stage σ) β} (first : Confined scope steady reads writes x)
    (later : ∀ a, Confined scope steady reads writes (f a)) :
    Confined scope steady reads writes (x >>= f) := by
  intro s t random output calm calm' agree
  obtain ⟨made, result, next, shown, among, left, right⟩ :=
    first s t random output calm calm' agree
  cases result with
  | error e =>
    refine ⟨made, .error e, next, shown, among, ?_, ?_⟩
    · rw [Run.bind_apply, left, Run.andThen_error]
    · rw [Run.bind_apply, right, Run.andThen_error]
  | ok a =>
    obtain ⟨more, last, next', shown', among', left', right'⟩ :=
      later a _ _ next shown (lawful.steady_perform calm) (lawful.steady_perform calm')
        (lawful.agree_perform calm calm' agree)
    refine ⟨made ++ more, last, next', shown', ?_, ?_, ?_⟩
    · intro w member
      rcases List.mem_append.mp member with early | late
      · exact among w early
      · exact among' w late
    · rw [Run.bind_apply, left, Run.andThen_ok, left', scope.perform_append]
    · rw [Run.bind_apply, right, Run.andThen_ok, right', scope.perform_append]

theorem confined_onVars {m : Run σ α} (confined : Run.Confined scope steady reads writes m) :
    Confined scope steady reads writes (onVars m) := by
  intro s t random output calm calm' agree
  obtain ⟨made, result, among, left, right⟩ := confined s t calm calm' agree
  refine ⟨made, result, random, output, among, ?_, ?_⟩
  · simp only [onVars, left]
  · simp only [onVars, right]

theorem confined_onOutput (f : Body → Body) :
    Confined scope steady reads writes (onOutput f : Run (Stage σ) Unit) :=
  fun _ _ random output _ _ _ => ⟨[], .ok (), random, f output, by simp, rfl, rfl⟩

theorem confined_draw : Confined scope steady reads writes (draw : Run (Stage σ) Number) := by
  intro s t random output _ _ _
  exact ⟨[], .ok (.binary random.next.1), random.next.2, output, by simp, rfl, rfl⟩

/-- What is settled by the values of variables is the same where these are. -/
theorem confined_settle {f : (String → Option Value) → Except Failure α}
    (congr : ∀ lookup lookup', (∀ name ∈ reads, lookup name = lookup' name) →
      f lookup = f lookup') : Confined scope steady reads writes (settle scope f) := by
  intro s t random output _ _ agree
  refine ⟨[], f fun name => scope.read name s, random, output, by simp, ?_, ?_⟩
  · exact Run.ofExcept_apply (f fun name => scope.read name s) _
  · rw [congr _ _ agree]
    exact Run.ofExcept_apply (f fun name => scope.read name t) _

end Stage

namespace Body

/-- What a body does to some variables only: it reads none but some, assigns to none but some, and
has no assignments inside its expressions. -/
def Law.within (reads writes : List String) : Law where
  text t := t.reads ⊆ reads
  action a := a.reads ⊆ reads
  set s := s.reads ⊆ reads ∧ s.target ∈ writes ∧ s.value.assigns = false
  condition e := e.names ⊆ reads ∧ e.assigns = false
  input i := i.reads ⊆ reads
  reply r := r.reads ⊆ reads

/-- Expressions assign to nothing but what a command assigns to. -/
def Law.quiet : Law where
  set s := s.value.assigns = false
  condition e := e.assigns = false
  reply r := ∀ s, ReplyCommand.set s ∈ r.commands → s.value.assigns = false

variable {σ : Type} {scope : Scope σ} {steady : σ → Prop} {reads writes : List String}

/-- Each step of a body is confined to the variables that its parts read and write. -/
theorem within_passes (lawful : scope.Lawful steady) :
    (Law.within reads writes).Passes scope
      fun _ m => Stage.Confined scope steady reads writes m where
  pure _ a := Stage.confined_pure a
  bind _ _ _ _ := Stage.confined_bind lawful
  text t within := Stage.confined_bind lawful
    (Stage.confined_settle fun _ _ => Template.resolve_congr within)
    fun _ => Stage.confined_onOutput _
  action a within := Stage.confined_bind lawful
    (Stage.confined_settle fun _ _ => Action.resolve_congr within)
    fun _ => Stage.confined_onOutput _
  input i within := Stage.confined_bind lawful
    (Stage.confined_settle fun _ _ => Input.resolve_congr within)
    fun _ => Stage.confined_onOutput _
  reply r within := Stage.confined_bind lawful
    (Stage.confined_settle fun _ _ => Reply.resolve_congr within)
    fun _ => Stage.confined_onOutput _
  set s within := by
    refine Stage.confined_onVars (Expr.confined_assign lawful ?_ within.2.1)
    exact Expr.confined_eval_of_not_assigns lawful within.2.2 within.1
  condition e within :=
    Stage.confined_onVars (Expr.confined_eval_of_not_assigns lawful within.2 within.1)
  number x := Stage.confined_ofExcept x
  draw := Stage.confined_draw

end Body

/-! The declared variables are all that there are. -/

section Declared

variable {reads writes : List String}

mutual

theorem Command.meets_within (c : Command) (quiet : c.Meets Body.Law.quiet)
    (read : c.reads ⊆ reads) (written : c.writes ⊆ writes) :
    c.Meets (Body.Law.within reads writes) := by
  cases c with
  | action a => exact read
  | set s => exact ⟨read, written (by simp [Command.writes]), quiet⟩
  | choice clauses otherwise =>
    have reads := List.append_subset.mp read
    have writes := List.append_subset.mp written
    exact ⟨quiet.1, clausesMeet_within clauses quiet.2.1 reads.1 writes.1,
      optionMeets_within otherwise quiet.2.2 reads.2 writes.2⟩
  | random clauses => exact ⟨quiet.1, weightedMeet_within clauses quiet.2 read written⟩
  | input i => exact read

theorem clausesMeet_within (clauses : List IfClause)
    (quiet : ClausesMeet Body.Law.quiet clauses) (read : readsOfClauses clauses ⊆ reads)
    (written : writesOfClauses clauses ⊆ writes) :
    ClausesMeet (Body.Law.within reads writes) clauses := by
  match clauses with
  | [] => trivial
  | ⟨condition, body⟩ :: rest =>
    have reads := List.append_subset.mp read
    have first := List.append_subset.mp reads.1
    have writes := List.append_subset.mp written
    exact ⟨⟨first.1, quiet.1⟩, body.meets_within quiet.2.1 first.2 writes.1,
      clausesMeet_within rest quiet.2.2 reads.2 writes.2⟩

theorem weightedMeet_within (clauses : List RandomClause)
    (quiet : WeightedMeet Body.Law.quiet clauses) (read : readsOfWeighted clauses ⊆ reads)
    (written : writesOfWeighted clauses ⊆ writes) :
    WeightedMeet (Body.Law.within reads writes) clauses := by
  match clauses with
  | [] => trivial
  | ⟨weight, body⟩ :: rest =>
    have reads := List.append_subset.mp read
    have writes := List.append_subset.mp written
    exact ⟨trivial, body.meets_within quiet.2.1 reads.1 writes.1,
      weightedMeet_within rest quiet.2.2 reads.2 writes.2⟩

theorem optionMeets_within (o : Option Body) (quiet : OptionMeets Body.Law.quiet o)
    (read : readsOfOptional o ⊆ reads) (written : writesOfOptional o ⊆ writes) :
    OptionMeets (Body.Law.within reads writes) o := by
  match o with
  | none => trivial
  | some body => exact body.meets_within quiet read written

theorem segmentsMeet_within (segments : List (Segment Command))
    (quiet : SegmentsMeet Body.Law.quiet segments) (read : readsOfSegments segments ⊆ reads)
    (written : writesOfSegments segments ⊆ writes) :
    SegmentsMeet (Body.Law.within reads writes) segments := by
  match segments with
  | [] => trivial
  | .text t :: rest =>
    have reads := List.append_subset.mp read
    exact ⟨reads.1, segmentsMeet_within rest quiet.2 reads.2 written⟩
  | .command c :: rest =>
    have reads := List.append_subset.mp read
    have writes := List.append_subset.mp written
    exact ⟨c.meets_within quiet.1 reads.1 writes.1,
      segmentsMeet_within rest quiet.2 reads.2 writes.2⟩

/-- A body whose expressions assign to nothing does to variables what it declares. -/
theorem Body.meets_within (b : Body) (quiet : b.Meets Body.Law.quiet) (read : b.reads ⊆ reads)
    (written : b.writes ⊆ writes) : b.Meets (Body.Law.within reads writes) := by
  match b with
  | ⟨segments, replies⟩ =>
    have reads := List.append_subset.mp read
    have writes := List.append_subset.mp written
    refine ⟨trivial, segmentsMeet_within segments quiet.2.1 reads.1 writes.1, ?_⟩
    intro r member name inside
    exact reads.2 (List.mem_flatMap.mpr ⟨r, member, inside⟩)

end

end Declared

namespace Body

variable {dialogue : String} {allowed : List String} {uses : List PointerUse}

theorem assigns_of_condition {e : Enclosed} {name : String} {condition : Expr}
    (read : e.condition name = .ok condition) : condition.assigns = false := by
  unfold Enclosed.condition at read
  rw [bind_eq_ok_iff] at read
  obtain ⟨found, _, read⟩ := read
  split at read
  · cases read
  · rename_i no_assign
    cases read
    simpa using no_assign

theorem assigns_of_assignment {e : Enclosed} {s : Assignment} (read : e.assignment = .ok s) :
    s.value.assigns = false := by
  unfold Enclosed.assignment at read
  rw [bind_eq_ok_iff] at read
  obtain ⟨found, _, read⟩ := read
  split at read
  · split at read
    · cases read
    · rename_i no_assign
      cases read
      simpa using no_assign
  · cases read

theorem assigns_of_replyCommand {e : Enclosed} {s : Assignment}
    (read : replyCommand e = .ok (.set s)) : s.value.assigns = false := by
  unfold replyCommand at read
  rw [bind_eq_ok_iff] at read
  obtain ⟨⟨name, t, command⟩, _, read⟩ := read
  rw [bind_eq_ok_iff] at read
  obtain ⟨_, _, read⟩ := read
  split at read
  · rw [bind_eq_ok_iff] at read
    obtain ⟨found, _, read⟩ := read
    rw [bind_eq_ok_iff] at read
    obtain ⟨a, _, read⟩ := read
    cases read
  · rw [bind_eq_ok_iff] at read
    obtain ⟨found, assigned, read⟩ := read
    cases read
    exact assigns_of_assignment assigned

theorem assigns_of_replyCommands {items : List Item} {commands : List ReplyCommand}
    (read : replyCommands items = .ok commands) {s : Assignment}
    (member : ReplyCommand.set s ∈ commands) : s.value.assigns = false := by
  fun_induction replyCommands items generalizing commands with
  | case1 =>
    cases read
    cases member
  | case2 rest e ih =>
    rw [bind_eq_ok_iff] at read
    obtain ⟨command, first, read⟩ := read
    rw [bind_eq_ok_iff] at read
    obtain ⟨others, later, read⟩ := read
    cases read
    rcases List.mem_cons.mp member with rfl | member
    · exact assigns_of_replyCommand first
    · exact ih later member
  | case3 rest tokens blank ih => exact ih read member
  | _ => cases read

theorem assigns_of_replyOf {id : Nat} {e : Enclosed} {r : Reply} {use : PointerUse}
    (read : replyOf dialogue id e = .ok (r, use)) {s : Assignment}
    (member : ReplyCommand.set s ∈ r.commands) : s.value.assigns = false := by
  obtain ⟨_, _, commands, _, _, _, _, found, _, _⟩ := sections_of_replyOf read
  cases commands with
  | none =>
    have none_there : r.commands = [] := (Except.ok.inj found).symm
    rw [none_there] at member
    cases member
  | some part => exact assigns_of_replyCommands found member

theorem quiet_kept : Law.quiet.Kept dialogue allowed (fun _ => True) uses where
  set _ _ _ := assigns_of_assignment
  condition _ _ _ _ := assigns_of_condition
  text _ _ := trivial
  joined _ _ _ _ := trivial
  trimStart _ _ := trivial
  trimEnd _ _ := trivial
  action _ _ _ _ _ _ := trivial
  weight _ _ _ _ _ _ := trivial
  input _ _ _ _ _ _ _ := trivial
  reply _ _ _ _ _ read _ _ member := assigns_of_replyOf read member
  draftNil := trivial
  draftText _ _ _ := trivial
  draftCommand _ _ _ := trivial
  draftReply _ _ _ _ := trivial
  whole _ _ := trivial

/-- A body that has been read is confined, when it runs, to the variables that it declares. -/
theorem confined_of_ofTokens {σ : Type} {scope : Scope σ} {steady : σ → Prop}
    (lawful : scope.Lawful steady) {tokens : List Token} {b : Body}
    (read : ofTokens dialogue allowed tokens = .ok (b, uses)) :
    Stage.Confined scope steady b.reads b.writes (b.run scope) := by
  have quiet : b.Meets Law.quiet := meets_of_ofTokens quiet_kept (fun _ _ => trivial) read
  have within : b.Meets (Law.within b.reads b.writes) :=
    b.meets_within quiet (List.Subset.refl _) (List.Subset.refl _)
  exact b.run_passed (within_passes lawful) within

end Body
end Parley
