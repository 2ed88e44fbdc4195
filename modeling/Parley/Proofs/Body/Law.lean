import Parley.Proofs.Body.Reading
import Parley.Proofs.Template.Atoms

/-!
Laws on the parts of a body at every depth. A law that holds of all that can be read from tokens,
and that joining and trimming of text keep, holds of every body that is read.
-/
namespace Parley

/-- What is asked of the parts of a body. The body itself is asked one thing while it is being read
and another when it has been read to its end. -/
structure Body.Law where
  text : Template → Prop := fun _ => True
  action : Action → Prop := fun _ => True
  set : Assignment → Prop := fun _ => True
  condition : Expr → Prop := fun _ => True
  weight : Number → Prop := fun _ => True
  input : Input → Prop := fun _ => True
  reply : Reply → Prop := fun _ => True
  draft : Body → Prop := fun _ => True
  whole : Body → Prop := fun _ => True

mutual

def Command.Meets (law : Body.Law) : Command → Prop
  | .action a => law.action a
  | .set s => law.set s
  | .choice clauses otherwise =>
      clauses ≠ [] ∧ ClausesMeet law clauses ∧ OptionMeets law otherwise
  | .random clauses => clauses ≠ [] ∧ WeightedMeet law clauses
  | .input i => law.input i

def ClausesMeet (law : Body.Law) : List IfClause → Prop
  | [] => True
  | ⟨condition, body⟩ :: rest => law.condition condition ∧ body.Meets law ∧ ClausesMeet law rest

def WeightedMeet (law : Body.Law) : List RandomClause → Prop
  | [] => True
  | ⟨weight, body⟩ :: rest => law.weight weight ∧ body.Meets law ∧ WeightedMeet law rest

def OptionMeets (law : Body.Law) : Option Body → Prop
  | none => True
  | some body => body.Meets law

def SegmentsMeet (law : Body.Law) : List (Segment Command) → Prop
  | [] => True
  | .text t :: rest => law.text t ∧ SegmentsMeet law rest
  | .command c :: rest => c.Meets law ∧ SegmentsMeet law rest

/-- Whether a body and all that stands in it obey a law. -/
def Body.Meets (law : Body.Law) : Body → Prop
  | ⟨segments, replies⟩ =>
      law.whole ⟨segments, replies⟩ ∧ SegmentsMeet law segments ∧ ∀ r ∈ replies, law.reply r

end

variable {law : Body.Law}

theorem clausesMeet_append {a b : List IfClause} :
    ClausesMeet law (a ++ b) ↔ ClausesMeet law a ∧ ClausesMeet law b := by
  induction a with
  | nil => simp [ClausesMeet]
  | cons clause rest ih =>
    obtain ⟨condition, body⟩ := clause
    simp [ClausesMeet, ih, and_assoc]

theorem weightedMeet_append {a b : List RandomClause} :
    WeightedMeet law (a ++ b) ↔ WeightedMeet law a ∧ WeightedMeet law b := by
  induction a with
  | nil => simp [WeightedMeet]
  | cons clause rest ih =>
    obtain ⟨weight, body⟩ := clause
    simp [WeightedMeet, ih, and_assoc]

theorem segmentsMeet_append {a b : List (Segment Command)} :
    SegmentsMeet law (a ++ b) ↔ SegmentsMeet law a ∧ SegmentsMeet law b := by
  induction a with
  | nil => simp [SegmentsMeet]
  | cons s rest ih => cases s <;> simp [SegmentsMeet, ih, and_assoc]

theorem segmentsMeet_reverse {segments : List (Segment Command)} :
    SegmentsMeet law segments.reverse ↔ SegmentsMeet law segments := by
  induction segments with
  | nil => simp
  | cons s rest ih =>
    rw [List.reverse_cons, segmentsMeet_append, ih]
    cases s <;> simp [SegmentsMeet, and_comm]

/-- What makes it decidable whether a body obeys a law. -/
class Body.Law.Decides (law : Body.Law) where
  text : DecidablePred law.text
  action : DecidablePred law.action
  set : DecidablePred law.set
  condition : DecidablePred law.condition
  weight : DecidablePred law.weight
  input : DecidablePred law.input
  reply : DecidablePred law.reply
  whole : DecidablePred law.whole

section Decides

variable {law : Body.Law} [decides : law.Decides]

mutual

def Command.decideMeets : (c : Command) → Decidable (c.Meets law)
  | .action a => decides.action a
  | .set s => decides.set s
  | .choice clauses otherwise =>
      have : Decidable (ClausesMeet law clauses) := decideClauses clauses
      have : Decidable (OptionMeets law otherwise) := decideOption otherwise
      inferInstanceAs (Decidable (_ ∧ _ ∧ _))
  | .random clauses =>
      have : Decidable (WeightedMeet law clauses) := decideWeighted clauses
      inferInstanceAs (Decidable (_ ∧ _))
  | .input i => decides.input i

def decideClauses : (clauses : List IfClause) → Decidable (ClausesMeet law clauses)
  | [] => .isTrue trivial
  | ⟨condition, body⟩ :: rest =>
      have : Decidable (law.condition condition) := decides.condition condition
      have : Decidable (body.Meets law) := body.decideMeets
      have : Decidable (ClausesMeet law rest) := decideClauses rest
      inferInstanceAs (Decidable (_ ∧ _ ∧ _))

def decideWeighted : (clauses : List RandomClause) → Decidable (WeightedMeet law clauses)
  | [] => .isTrue trivial
  | ⟨weight, body⟩ :: rest =>
      have : Decidable (law.weight weight) := decides.weight weight
      have : Decidable (body.Meets law) := body.decideMeets
      have : Decidable (WeightedMeet law rest) := decideWeighted rest
      inferInstanceAs (Decidable (_ ∧ _ ∧ _))

def decideOption : (o : Option Body) → Decidable (OptionMeets law o)
  | none => .isTrue trivial
  | some body => body.decideMeets

def decideSegments : (segments : List (Segment Command)) → Decidable (SegmentsMeet law segments)
  | [] => .isTrue trivial
  | .text t :: rest =>
      have : Decidable (law.text t) := decides.text t
      have : Decidable (SegmentsMeet law rest) := decideSegments rest
      inferInstanceAs (Decidable (_ ∧ _))
  | .command c :: rest =>
      have : Decidable (c.Meets law) := c.decideMeets
      have : Decidable (SegmentsMeet law rest) := decideSegments rest
      inferInstanceAs (Decidable (_ ∧ _))

def Body.decideMeets : (b : Body) → Decidable (b.Meets law)
  | ⟨segments, replies⟩ =>
      have : Decidable (law.whole ⟨segments, replies⟩) := decides.whole _
      have : Decidable (SegmentsMeet law segments) := decideSegments segments
      have : DecidablePred law.reply := decides.reply
      inferInstanceAs (Decidable (_ ∧ _ ∧ ∀ r ∈ replies, law.reply r))

end

instance : DecidablePred (Body.Meets law) := Body.decideMeets

end Decides

/-- A law that follows from two others, part by part, holds of a body that obeys both. -/
structure Body.Law.Follows (law first second : Body.Law) : Prop where
  text : ∀ t, first.text t → second.text t → law.text t
  action : ∀ a, first.action a → second.action a → law.action a
  set : ∀ s, first.set s → second.set s → law.set s
  condition : ∀ e, first.condition e → second.condition e → law.condition e
  weight : ∀ w, first.weight w → second.weight w → law.weight w
  input : ∀ i, first.input i → second.input i → law.input i
  reply : ∀ r, first.reply r → second.reply r → law.reply r
  whole : ∀ b, first.whole b → second.whole b → law.whole b

section Follows

variable {first second : Body.Law}

mutual

theorem Command.meets_of_both (follows : law.Follows first second) (c : Command)
    (one : c.Meets first) (two : c.Meets second) : c.Meets law := by
  cases c with
  | action a => exact follows.action a one two
  | set s => exact follows.set s one two
  | choice clauses otherwise =>
    exact ⟨one.1, clausesMeet_of_both follows clauses one.2.1 two.2.1,
      optionMeets_of_both follows otherwise one.2.2 two.2.2⟩
  | random clauses => exact ⟨one.1, weightedMeet_of_both follows clauses one.2 two.2⟩
  | input i => exact follows.input i one two

theorem clausesMeet_of_both (follows : law.Follows first second) (clauses : List IfClause)
    (one : ClausesMeet first clauses) (two : ClausesMeet second clauses) :
    ClausesMeet law clauses := by
  match clauses with
  | [] => trivial
  | ⟨condition, body⟩ :: rest =>
    exact ⟨follows.condition condition one.1 two.1, body.meets_of_both follows one.2.1 two.2.1,
      clausesMeet_of_both follows rest one.2.2 two.2.2⟩

theorem weightedMeet_of_both (follows : law.Follows first second) (clauses : List RandomClause)
    (one : WeightedMeet first clauses) (two : WeightedMeet second clauses) :
    WeightedMeet law clauses := by
  match clauses with
  | [] => trivial
  | ⟨weight, body⟩ :: rest =>
    exact ⟨follows.weight weight one.1 two.1, body.meets_of_both follows one.2.1 two.2.1,
      weightedMeet_of_both follows rest one.2.2 two.2.2⟩

theorem optionMeets_of_both (follows : law.Follows first second) (o : Option Body)
    (one : OptionMeets first o) (two : OptionMeets second o) : OptionMeets law o := by
  match o with
  | none => trivial
  | some body => exact body.meets_of_both follows one two

theorem segmentsMeet_of_both (follows : law.Follows first second)
    (segments : List (Segment Command)) (one : SegmentsMeet first segments)
    (two : SegmentsMeet second segments) : SegmentsMeet law segments := by
  match segments with
  | [] => trivial
  | .text t :: rest =>
    exact ⟨follows.text t one.1 two.1, segmentsMeet_of_both follows rest one.2 two.2⟩
  | .command c :: rest =>
    exact ⟨c.meets_of_both follows one.1 two.1, segmentsMeet_of_both follows rest one.2 two.2⟩

theorem Body.meets_of_both (follows : law.Follows first second) (b : Body)
    (one : b.Meets first) (two : b.Meets second) : b.Meets law := by
  match b with
  | ⟨segments, replies⟩ =>
    exact ⟨follows.whole _ one.1 two.1, segmentsMeet_of_both follows segments one.2.1 two.2.1,
      fun r member => follows.reply r (one.2.2 r member) (two.2.2 r member)⟩

end

end Follows

mutual

theorem Command.replies_of_meets {c : Command} (meets : c.Meets law) :
    ∀ r ∈ c.replies, law.reply r := by
  intro r member
  cases c with
  | choice clauses otherwise =>
    rcases List.mem_append.mp member with inside | inside
    · exact replies_of_clausesMeet meets.2.1 r inside
    · exact replies_of_optionMeets meets.2.2 r inside
  | random clauses => exact replies_of_weightedMeet meets.2 r member
  | _ => cases member

theorem replies_of_clausesMeet {clauses : List IfClause} (meet : ClausesMeet law clauses) :
    ∀ r ∈ repliesOfClauses clauses, law.reply r := by
  intro r member
  match clauses with
  | [] => cases member
  | ⟨condition, body⟩ :: rest =>
    rcases List.mem_append.mp member with inside | inside
    · exact Body.replies_of_meets meet.2.1 r inside
    · exact replies_of_clausesMeet meet.2.2 r inside

theorem replies_of_weightedMeet {clauses : List RandomClause} (meet : WeightedMeet law clauses) :
    ∀ r ∈ repliesOfWeighted clauses, law.reply r := by
  intro r member
  match clauses with
  | [] => cases member
  | ⟨weight, body⟩ :: rest =>
    rcases List.mem_append.mp member with inside | inside
    · exact Body.replies_of_meets meet.2.1 r inside
    · exact replies_of_weightedMeet meet.2.2 r inside

theorem replies_of_optionMeets {o : Option Body} (meets : OptionMeets law o) :
    ∀ r ∈ repliesOfOptional o, law.reply r := by
  intro r member
  match o with
  | none => cases member
  | some body => exact Body.replies_of_meets meets r member

theorem replies_of_segmentsMeet {segments : List (Segment Command)}
    (meet : SegmentsMeet law segments) : ∀ r ∈ repliesOfSegments segments, law.reply r := by
  intro r member
  match segments with
  | [] => cases member
  | .text t :: rest => exact replies_of_segmentsMeet meet.2 r member
  | .command c :: rest =>
    rcases List.mem_append.mp member with inside | inside
    · exact Command.replies_of_meets meet.1 r inside
    · exact replies_of_segmentsMeet meet.2 r inside

/-- The replies at every depth of a body obey the law that the body obeys. -/
theorem Body.replies_of_meets {b : Body} (meets : b.Meets law) : ∀ r ∈ b.nested, law.reply r := by
  intro r member
  match b with
  | ⟨segments, replies⟩ =>
    rcases List.mem_append.mp member with own | inside
    · exact meets.2.2 r own
    · exact replies_of_segmentsMeet meets.2.1 r inside

end

/-- What follows for replies from two laws that a body obeys. -/
theorem Body.meets_of_replies {p : Reply → Prop} {first second : Body.Law}
    (step : ∀ r, first.reply r → second.reply r → p r) {b : Body} (one : b.Meets first)
    (two : b.Meets second) : b.Meets { reply := p } := by
  have follows : Body.Law.Follows { reply := p } first second := by
    constructor
    case reply => exact step
    all_goals exact fun _ _ _ => trivial
  exact b.meets_of_both follows one two

namespace Item

/-- The tokens of an item without the markers around them. -/
def tokens : Item → List Token
  | text tokens => tokens
  | command e | reply e => e.inner
  | stray t => [t]

theorem tokens_subset {ts : List Token} : ∀ item ∈ ofTokens ts, item.tokens ⊆ ts := by
  have inner (kind : TokenKind) (place : Position) (rest : List Token) :
      (Enclosed.upTo kind place rest).inner ⊆ rest := (List.takeWhile_prefix _).subset
  have behind (kind : TokenKind) (rest : List Token) : Token.behind kind rest ⊆ rest :=
    ((List.tail_suffix _).trans (List.dropWhile_suffix _)).subset
  fun_induction ofTokens ts with
  | case1 => simp
  | case2 t rest value content ih =>
    intro item member
    rcases List.mem_cons.mp member with rfl | later
    · exact List.cons_subset_cons t (List.takeWhile_prefix _).subset
    · intro u inside
      exact List.mem_cons_of_mem t ((List.dropWhile_suffix _).subset (ih item later inside))
  | case3 t rest name content ih =>
    intro item member
    rcases List.mem_cons.mp member with rfl | later
    · exact List.cons_subset_cons t (List.takeWhile_prefix _).subset
    · intro u inside
      exact List.mem_cons_of_mem t ((List.dropWhile_suffix _).subset (ih item later inside))
  | case4 t rest content ih =>
    intro item member
    rcases List.mem_cons.mp member with rfl | later
    · exact List.Subset.trans (inner _ _ rest) (List.subset_cons_self t rest)
    · intro u inside
      exact List.mem_cons_of_mem t (behind _ rest (ih item later inside))
  | case5 t rest content ih =>
    intro item member
    rcases List.mem_cons.mp member with rfl | later
    · exact List.Subset.trans (inner _ _ rest) (List.subset_cons_self t rest)
    · intro u inside
      exact List.mem_cons_of_mem t (behind _ rest (ih item later inside))
  | case6 t rest _ _ _ _ ih =>
    intro item member
    rcases List.mem_cons.mp member with rfl | later
    · simp [tokens]
    · exact List.Subset.trans (ih item later) (List.subset_cons_self t rest)

end Item

/-- The command behind its name has the same markers and, from the name on, the same tokens. -/
theorem Enclosed.named_eq_ok {tokens e : Enclosed} {name : String} {t : Token}
    (named : tokens.named = .ok (name, t, e)) :
    e = { tokens with inner := Token.skipBlank tokens.inner } ∧ e.inner.head? = some t := by
  unfold Enclosed.named at named
  split at named
  · split at named <;> cases named
  · rename_i first rest found
    split at named
    · cases named
      exact ⟨by rw [found], rfl⟩
    · cases named

theorem Enclosed.inner_subset_of_named {tokens e : Enclosed} {name : String} {t : Token}
    (named : tokens.named = .ok (name, t, e)) : e.inner ⊆ tokens.inner := by
  rw [(named_eq_ok named).1]
  exact (List.dropWhile_suffix _).subset

/-- What makes a law hold of all bodies that are read in a dialogue from fit tokens, with the given
pointers in them. -/
structure Body.Law.Kept (law : Body.Law) (dialogue : String) (allowed : List String)
    (fit : Token → Prop) (uses : List PointerUse) : Prop where
  text : ∀ tokens, (∀ t ∈ tokens, fit t) → law.text (Item.template tokens)
  joined : ∀ t u, law.text t → law.text u → law.text (t ++ u)
  trimStart : ∀ t, law.text t → law.text t.trimStart
  trimEnd : ∀ t, law.text t → law.text t.trimEnd
  action : ∀ (e : Enclosed) found a, (∀ t ∈ e.inner, fit t) → Attributes.ofCommand e = .ok found →
    Action.ofAttributes found = .ok a → law.action a
  set : ∀ (e : Enclosed) a, (∀ t ∈ e.inner, fit t) → e.assignment = .ok a → law.set a
  condition : ∀ (e : Enclosed) name condition, (∀ t ∈ e.inner, fit t) →
    e.condition name = .ok condition → law.condition condition
  weight : ∀ (e : Enclosed) found weight, (∀ t ∈ e.inner, fit t) →
    Attributes.ofCommand e = .ok found →
    weightOf found = .ok weight → law.weight weight
  input : ∀ (e : Enclosed) found i, "input" ∈ allowed → (∀ t ∈ e.inner, fit t) →
    Attributes.ofCommand e = .ok found → Input.ofAttributes found = .ok i → law.input i
  reply : ∀ id (e : Enclosed) r use, (∀ t ∈ e.inner, fit t) → replyOf dialogue id e = .ok (r, use) →
    use ∈ uses → law.reply r
  draftNil : law.draft .empty
  draftText : ∀ b t, law.draft b → law.draft (b.addText t)
  draftCommand : ∀ b c, law.draft b → law.draft (b.addCommand c)
  draftReply : ∀ b r, law.draft b → r.isAutoforward = false ∨ b.hasAutoforward = false →
    law.draft (b.addReply r)
  whole : ∀ b, law.draft b → law.whole b.trim

section Kept

variable {dialogue : String} {allowed : List String} {fit : Token → Prop} {uses : List PointerUse}

theorem segmentsMeet_push_text (joined : ∀ t u, law.text t → law.text u → law.text (t ++ u))
    {segments : List (Segment Command)} {t : Template} (meet : SegmentsMeet law segments)
    (text : law.text t) : SegmentsMeet law (Segment.push segments (.text t)) := by
  induction segments with
  | nil => exact ⟨text, trivial⟩
  | cons first rest ih =>
    cases first with
    | command c => exact ⟨meet.1, ih meet.2⟩
    | text u =>
      cases rest with
      | nil => exact ⟨joined u t meet.1 text, trivial⟩
      | cons second others => exact ⟨meet.1, ih meet.2⟩

theorem segmentsMeet_push_command {segments : List (Segment Command)} {c : Command}
    (meet : SegmentsMeet law segments) (command : c.Meets law) :
    SegmentsMeet law (Segment.push segments (.command c)) := by
  induction segments with
  | nil => exact ⟨command, trivial⟩
  | cons first rest ih =>
    cases first with
    | command d => exact ⟨meet.1, ih meet.2⟩
    | text t => cases rest <;> exact ⟨meet.1, ih meet.2⟩

theorem segmentsMeet_trimBy {shorten : Template → Template}
    (kept : ∀ t, law.text t → law.text (shorten t)) {segments : List (Segment Command)}
    (meet : SegmentsMeet law segments) : SegmentsMeet law (Segment.trimBy shorten segments) := by
  fun_induction Segment.trimBy shorten segments with
  | case1 t rest empty ih => exact ih meet.2
  | case2 t rest some => exact ⟨kept t meet.1, meet.2⟩
  | case3 segments other => exact meet

theorem segmentsMeet_trim (start : ∀ t, law.text t → law.text t.trimStart)
    (finish : ∀ t, law.text t → law.text t.trimEnd) {segments : List (Segment Command)}
    (meet : SegmentsMeet law segments) : SegmentsMeet law (Segment.trim segments) := by
  rw [Segment.trim_eq]
  exact segmentsMeet_reverse.mpr
    (segmentsMeet_trimBy finish (segmentsMeet_reverse.mpr (segmentsMeet_trimBy start meet)))

namespace Body

/-- Whether a body obeys a law as far as it has been read. -/
def Drafted (law : Law) (b : Body) : Prop :=
  law.draft b ∧ SegmentsMeet law b.segments ∧ ∀ r ∈ b.replies, law.reply r

def Block.Meets (law : Law) : Block → Prop
  | .choice done (some condition) => ClausesMeet law done ∧ law.condition condition
  | .choice done none => done ≠ [] ∧ ClausesMeet law done
  | .random done weight => WeightedMeet law done ∧ law.weight weight

theorem drafted_empty (kept : law.Kept dialogue allowed fit uses) : Drafted law .empty :=
  ⟨kept.draftNil, trivial, by simp [empty]⟩

theorem Drafted.addText (kept : law.Kept dialogue allowed fit uses) {b : Body}
    (drafted : Drafted law b)
    {t : Template} (text : law.text t) : Drafted law (b.addText t) := by
  obtain ⟨draft, meet, replies⟩ := drafted
  refine ⟨kept.draftText b t draft, ?_, replies⟩
  unfold Body.addText Segment.pushText
  split
  · exact meet
  · exact segmentsMeet_push_text kept.joined meet text

theorem Drafted.addCommand (kept : law.Kept dialogue allowed fit uses) {b : Body}
    (drafted : Drafted law b) {c : Command} (command : c.Meets law) :
    Drafted law (b.addCommand c) := by
  obtain ⟨draft, meet, replies⟩ := drafted
  exact ⟨kept.draftCommand _ _ draft, segmentsMeet_push_command meet command, replies⟩

theorem Drafted.addReply (kept : law.Kept dialogue allowed fit uses) {b : Body}
    (drafted : Drafted law b) {r : Reply} (reply : law.reply r)
    (single : r.isAutoforward = false ∨ b.hasAutoforward = false) :
    Drafted law (b.addReply r) := by
  obtain ⟨draft, meet, replies⟩ := drafted
  refine ⟨kept.draftReply b r draft single, meet, fun other member => ?_⟩
  rcases List.mem_append.mp member with earlier | last
  · exact replies other earlier
  · rw [List.mem_singleton.mp last]
    exact reply

/-- A draft becomes a body when it is trimmed. -/
theorem Drafted.trim (kept : law.Kept dialogue allowed fit uses) {b : Body}
    (drafted : Drafted law b) :
    b.trim.Meets law := by
  obtain ⟨draft, meet, replies⟩ := drafted
  exact ⟨kept.whole _ draft, segmentsMeet_trim kept.trimStart kept.trimEnd meet, replies⟩

namespace Reading

/-- Whether all that has been read obeys a law. -/
def Obeys (law : Law) (s : Reading) : Prop :=
  Drafted law s.body ∧ ∀ f ∈ s.frames, Drafted law f.outer ∧ f.block.Meets law

/-- A further clause or the end of a block leaves the frames around it as they were. -/
theorem Obeys.inside {s : Reading} {f : Frame} {rest : List Frame} (obeys : s.Obeys law)
    (inside : s.frames = f :: rest) :
    (Drafted law f.outer ∧ f.block.Meets law) ∧
      ∀ g ∈ rest, Drafted law g.outer ∧ g.block.Meets law := by
  have frames := obeys.2
  rw [inside] at frames
  exact ⟨frames f (by simp), fun g member => frames g (by simp [member])⟩

theorem Obeys.block {s : Reading} {f : Frame} {rest : List Frame} {block : Block}
    (obeys : s.Obeys law) (inside : s.frames = f :: rest) (open_ : f.block = block) :
    block.Meets law :=
  open_ ▸ (obeys.inside inside).1.2

theorem Obeys.reopen (kept : law.Kept dialogue allowed fit uses) {s : Reading} {f : Frame}
    {rest : List Frame} (obeys : s.Obeys law) (inside : s.frames = f :: rest) {block : Block}
    (meets : block.Meets law) : (s.reopen f rest block).Obeys law := by
  have around := obeys.inside inside
  refine ⟨drafted_empty kept, fun g member => ?_⟩
  rcases List.mem_cons.mp member with rfl | outer
  · exact ⟨around.1.1, meets⟩
  · exact around.2 g outer

theorem Obeys.close (kept : law.Kept dialogue allowed fit uses) {s : Reading} {f : Frame}
    {rest : List Frame} (obeys : s.Obeys law) (inside : s.frames = f :: rest) {c : Command}
    (meets : c.Meets law) : (s.close f rest c).Obeys law :=
  ⟨(obeys.inside inside).1.1.addCommand kept meets, (obeys.inside inside).2⟩

theorem Obeys.enter (kept : law.Kept dialogue allowed fit uses) {s : Reading} (obeys : s.Obeys law)
    {opener : Position} {block : Block} (meets : block.Meets law) :
    (s.enter opener block).Obeys law := by
  refine ⟨drafted_empty kept, fun g member => ?_⟩
  rcases List.mem_cons.mp member with rfl | outer
  · exact ⟨obeys.1, meets⟩
  · exact obeys.2 g outer

theorem Obeys.withCommand (kept : law.Kept dialogue allowed fit uses) {s : Reading}
    (obeys : s.Obeys law) {c : Command} (meets : c.Meets law) : (s.withCommand c).Obeys law :=
  ⟨obeys.1.addCommand kept meets, obeys.2⟩

/-- What is taken from fit tokens keeps the law, a reply as long as its pointer counts. -/
theorem Obeys.takes (kept : law.Kept dialogue allowed fit uses) {s s' : Reading} {item : Item}
    (fits : ∀ t ∈ item.tokens, fit t) (counted : s'.uses ⊆ uses) (obeys : s.Obeys law)
    (taken : Takes dialogue allowed s item s') : s'.Obeys law := by
  have within {tokens e : Enclosed} {name : String} {t : Token}
      (fits : ∀ t ∈ tokens.inner, fit t) (named : tokens.named = .ok (name, t, e)) :
      ∀ t ∈ e.inner, fit t :=
    fun t member => fits t (Enclosed.inner_subset_of_named named member)
  -- a clause that ends joins its block trimmed, and a block that ends joins the body around it
  cases taken with
  | text _ =>
    unfold Reading.withText
    split
    · exact ⟨obeys.1.addText kept (kept.text _ fits), obeys.2⟩
    · exact obeys
  | set named _ _ read => exact obeys.withCommand kept (kept.set _ _ (within fits named) read)
  | action named _ _ attributes read =>
    exact obeys.withCommand kept (kept.action _ _ _ (within fits named) attributes read)
  | input named permitted _ attributes read =>
    have standing : "input" ∈ allowed := by
      unfold allows at permitted
      split at permitted
      · exact permitted
      · simp [standardCommands] at permitted
    exact obeys.withCommand kept (kept.input _ _ _ standing (within fits named) attributes read)
  | openChoice named _ read =>
    exact obeys.enter kept ⟨trivial, kept.condition _ _ _ (within fits named) read⟩
  | openRandom named _ attributes read =>
    exact obeys.enter kept ⟨trivial, kept.weight _ _ _ (within fits named) attributes read⟩
  | nextChoice named inside block read =>
    have open_ := obeys.block inside block
    exact obeys.reopen kept inside
      ⟨clausesMeet_append.mpr ⟨open_.1, open_.2, obeys.1.trim kept, trivial⟩,
        kept.condition _ _ _ (within fits named) read⟩
  | otherwise _ inside block _ =>
    have open_ := obeys.block inside block
    exact obeys.reopen kept inside
      ⟨by simp, clausesMeet_append.mpr ⟨open_.1, open_.2, obeys.1.trim kept, trivial⟩⟩
  | closeChoice _ inside block _ =>
    have open_ := obeys.block inside block
    exact obeys.close kept inside
      ⟨by simp, clausesMeet_append.mpr ⟨open_.1, open_.2, obeys.1.trim kept, trivial⟩, trivial⟩
  | closeOtherwise _ inside block _ =>
    have open_ := obeys.block inside block
    exact obeys.close kept inside ⟨open_.1, open_.2, obeys.1.trim kept⟩
  | nextRandom named inside block attributes read =>
    have open_ := obeys.block inside block
    exact obeys.reopen kept inside
      ⟨weightedMeet_append.mpr ⟨open_.1, open_.2, obeys.1.trim kept, trivial⟩,
        kept.weight _ _ _ (within fits named) attributes read⟩
  | closeRandom _ inside block _ =>
    have open_ := obeys.block inside block
    exact obeys.close kept inside
      ⟨by simp, weightedMeet_append.mpr ⟨open_.1, open_.2, obeys.1.trim kept, trivial⟩⟩
  | @reply _ r use read single =>
    have counts : use ∈ uses := counted (by simp [Reading.withReply])
    exact ⟨obeys.1.addReply kept (kept.reply _ _ _ _ fits read counts) single, obeys.2⟩

/-- The pointers that have been read are never given up. -/
theorem uses_subset_of_takes {s s' : Reading} {item : Item}
    (taken : Takes dialogue allowed s item s') : s.uses ⊆ s'.uses := by
  cases taken with
  | text _ =>
    unfold Reading.withText
    split <;> exact List.Subset.refl _
  | reply _ _ => exact List.subset_append_left _ _
  | _ => exact List.Subset.refl _

theorem uses_subset_of_fold {s s' : Reading} {items : List Item}
    (run : items.foldlM (step dialogue allowed) s = .ok s') : s.uses ⊆ s'.uses := by
  induction items generalizing s with
  | nil => cases run; exact List.Subset.refl _
  | cons item rest ih =>
    obtain ⟨m, first, later⟩ := foldlM_cons_eq_ok_iff.mp run
    exact List.Subset.trans (uses_subset_of_takes (takes_of_step first)) (ih later)

theorem Obeys.fold (kept : law.Kept dialogue allowed fit uses) {s s' : Reading} {items : List Item}
    (fits : ∀ item ∈ items, ∀ t ∈ item.tokens, fit t) (counted : s'.uses ⊆ uses)
    (obeys : s.Obeys law) (run : items.foldlM (step dialogue allowed) s = .ok s') :
    s'.Obeys law := by
  induction items generalizing s with
  | nil => cases run; exact obeys
  | cons item rest ih =>
    obtain ⟨m, first, later⟩ := foldlM_cons_eq_ok_iff.mp run
    have next : m.Obeys law := obeys.takes kept (fits item (by simp))
      (List.Subset.trans (uses_subset_of_fold later) counted) (takes_of_step first)
    exact ih (fun other member => fits other (by simp [member])) next later

end Reading

/-- A body that is read from fit tokens obeys every law that reading keeps. -/
theorem meets_of_ofTokens {tokens : List Token} {b : Body}
    (kept : law.Kept dialogue allowed fit uses) (fits : ∀ t ∈ tokens, fit t)
    (read : ofTokens dialogue allowed tokens = .ok (b, uses)) : b.Meets law := by
  unfold ofTokens at read
  rw [bind_eq_ok_iff] at read
  obtain ⟨s, run, read⟩ := read
  unfold Reading.finish at read
  split at read
  · cases read
    have start : (Reading.start 1).Obeys law := ⟨drafted_empty kept, by simp [Reading.start]⟩
    have last : s.Obeys law := start.fold kept
      (fun item member t inside => fits t (Item.tokens_subset item member inside))
      (List.Subset.refl _) run
    exact last.1.trim kept
  · cases read

end Body
end Kept

end Parley
