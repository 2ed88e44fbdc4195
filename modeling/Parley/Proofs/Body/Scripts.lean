import Parley.Proofs.Body.Drafts
import Parley.Proofs.Body.Settled

/-!
Bodies as they are written. A body whose parts are each read from what is written of them is read
from its script, command by command and reply by reply.
-/
namespace Parley

open Tokenizer

/-- What is asked of the parts of a body for them to be read from what is written of them. -/
def Body.Law.scripted (dialogue : String) : Body.Law where
  text t := Atom.Readable t.atoms
  action a := a.Sound
  set s := s.expr.Scripted ∧ s.value.assigns = false
  condition e := e.Scripted ∧ e.assigns = false
  weight := Weighs
  input _ := False
  reply r := r.Sound dialogue
  whole b := Segment.Merged b.segments ∧ Segment.trim b.segments = b.segments ∧
    b.replies.Pairwise fun r s => r.isAutoforward = false ∨ s.isAutoforward = false

/-- How a script is cut into pieces behind which anything can follow. -/
def Tokenizer.Joins (cs : List Char) (ps : List Piece) : Prop :=
  ∀ ds qs, Writes false ds qs → Writes false (cs ++ ds) (ps ++ qs)

theorem Tokenizer.Joins.append {cs ds : List Char} {ps qs : List Piece} (first : Joins cs ps)
    (second : Joins ds qs) : Joins (cs ++ ds) (ps ++ qs) := by
  intro es rs behind
  rw [List.append_assoc, List.append_assoc]
  exact first _ _ (second es rs behind)

theorem IsCommand.joins {name script : String} {holds : Enclosed → Prop} {inner : List Piece}
    (isCommand : IsCommand name script holds inner) : Joins script.toList (enclose inner) :=
  fun _ _ behind => isCommand.writes behind

/-! Keywords -/

/-- The first command of a clause with a condition. -/
theorem exists_guard (keyword : String) (named : isName keyword.toList) {e : Expr}
    (scripted : e.Scripted) (pure : e.assigns = false) :
    ∃ inner, IsCommand keyword ("<<" ++ keyword ++ " " ++ e.toText ++ ">>")
      (·.condition keyword = .ok e) inner := by
  have each : ∀ found ∈ some e, found.Scripted := by
    rintro found ⟨⟩
    exact scripted
  refine exists_expressionCommand named each ?_ fun source cut =>
    Enclosed.condition_of_cut named scripted pure source cut
  simp [behindBlank]

/-- A command that is nothing but its name. -/
theorem exists_word (keyword : String) (named : isName keyword.toList) :
    ∃ inner, IsCommand keyword ("<<" ++ keyword ++ ">>") (·.nameOnly keyword = .ok ()) inner := by
  have each : ∀ found ∈ (none : Option Expr), found.Scripted := by simp
  refine exists_expressionCommand named each ?_ fun source cut =>
    Enclosed.nameOnly_of_cut named (by simpa [behindBlank] using source) cut
  simp [behindBlank]

/-- The first command of a clause with a weight. -/
theorem exists_weight (keyword : String) (named : isName keyword.toList) {w : Number}
    (weighs : Weighs w) : ∃ inner, IsCommand keyword ("<<" ++ keyword ++ weightAttribute w ++ ">>")
      (fun e => ∃ found, Attributes.ofCommand e = .ok found ∧
        weightOf found = .ok (settledWeight w))
      inner := by
  obtain ⟨encloses, source, name, read⟩ := isCommand_attributes named (sound_weight weighs)
  refine ⟨_, encloses, ?_, name, fun tokens start stop cut => ?_⟩
  · rw [source, weightAttribute_eq weighs]
  · obtain ⟨found, attributes, listed⟩ := read tokens start stop cut
    exact ⟨found, attributes, weightOf_of_lists weighs listed⟩

/-- The last command of a block with weights. -/
theorem exists_endrandom : ∃ inner, IsCommand "endrandom" "<<endrandom>>"
    (fun e => ∃ found, Attributes.ofCommand e = .ok found) inner := by
  have sound : Attributes.Sound [] := ⟨by simp, by simp, by simp⟩
  have named : isName "endrandom".toList := by decide
  obtain ⟨encloses, source, name, read⟩ := isCommand_attributes named sound
  refine ⟨_, encloses, source, name, fun tokens start stop cut => ?_⟩
  obtain ⟨found, attributes, _⟩ := read tokens start stop cut
  exact ⟨found, attributes⟩

/-! Steps -/

namespace Body

variable {dialogue script : String} {d d' : Draft} {inner : List Piece} {name : String}
  {holds : Enclosed → Prop} {body outer : Body} {frames : List (Block × Body)} {next : Nat}

theorem Reading.allows_standard (s : Reading) : s.allows standardCommands = standardCommands := by
  unfold allows
  split <;> rfl

/-- A reader of bodies gets through a command that a reading takes. -/
theorem runs_of_takes (isCommand : IsCommand name script holds inner)
    (taken : ∀ e t, Enclosed.named e = .ok (name, t, e) → holds e →
      ∃ s, Reading.Takes dialogue standardCommands d.reading (.command e) s ∧ s.draft = d') :
    (bodyReader dialogue standardCommands).Runs d (enclose inner) d' := by
  refine Reader.runs_enclose isCommand.encloses fun tokens start stop cut => ?_
  obtain ⟨t, named⟩ := isCommand.named tokens start stop cut
  obtain ⟨s, takes, same⟩ := taken _ t named (isCommand.read tokens start stop cut)
  exact map_eq_ok_iff.mpr ⟨s, Reading.step_of_takes takes, same⟩

theorem runs_set {s : Assignment} (first : d.body.replies = [])
    (isCommand : IsCommand "set" script (·.assignment = .ok s) inner) :
    (bodyReader dialogue standardCommands).Runs d (enclose inner)
      { d with body := d.body.addCommand (.set s) } := by
  refine runs_of_takes isCommand fun e t named read => ?_
  exact ⟨_, .set named (by rw [Reading.allows_standard]; decide) first read,
    Draft.draft_reading { d with body := d.body.addCommand (.set s) }⟩

theorem runs_action {a : Action} (first : d.body.replies = [])
    (isCommand : IsCommand "action" script
      (fun e => ∃ found, Attributes.ofCommand e = .ok found ∧ Action.ofAttributes found = .ok a)
        inner) :
    (bodyReader dialogue standardCommands).Runs d (enclose inner)
      { d with body := d.body.addCommand (.action a) } := by
  refine runs_of_takes isCommand fun e t named ⟨found, attributes, read⟩ => ?_
  exact ⟨_, .action named (by rw [Reading.allows_standard]; decide) first attributes read,
    Draft.draft_reading { d with body := d.body.addCommand (.action a) }⟩

theorem runs_if {e : Expr} (isCommand : IsCommand "if" script (·.condition "if" = .ok e) inner) :
    (bodyReader dialogue standardCommands).Runs d (enclose inner)
      ⟨.empty, (.choice [] (some e), d.body) :: d.frames, d.next⟩ := by
  refine runs_of_takes isCommand fun _ t named read => ?_
  exact ⟨_, .openChoice named (by rw [Reading.allows_standard]; decide) read,
    draft_inside _ _ _ _ _ _⟩

theorem runs_elseif {e guard : Expr} {done : List IfClause}
    (isCommand : IsCommand "elseif" script (·.condition "elseif" = .ok e) inner) :
    (bodyReader dialogue standardCommands).Runs
      ⟨body, (.choice done (some guard), outer) :: frames, next⟩ (enclose inner)
      ⟨.empty, (.choice (done ++ [⟨guard, body.trim⟩]) (some e), outer) :: frames, next⟩ :=
  runs_of_takes isCommand fun _ _ named read =>
    ⟨_, .nextChoice named rfl rfl read, draft_inside _ _ _ _ _ _⟩

theorem runs_else {guard : Expr} {done : List IfClause}
    (isCommand : IsCommand "else" script (·.nameOnly "else" = .ok ()) inner) :
    (bodyReader dialogue standardCommands).Runs
      ⟨body, (.choice done (some guard), outer) :: frames, next⟩ (enclose inner)
      ⟨.empty, (.choice (done ++ [⟨guard, body.trim⟩]) none, outer) :: frames, next⟩ :=
  runs_of_takes isCommand fun _ _ named read =>
    ⟨_, .otherwise named rfl rfl read, draft_inside _ _ _ _ _ _⟩

theorem runs_endif {guard : Expr} {done : List IfClause}
    (isCommand : IsCommand "endif" script (·.nameOnly "endif" = .ok ()) inner) :
    (bodyReader dialogue standardCommands).Runs
      ⟨body, (.choice done (some guard), outer) :: frames, next⟩ (enclose inner)
      ⟨outer.addCommand (.choice (done ++ [⟨guard, body.trim⟩]) none), frames, next⟩ :=
  runs_of_takes isCommand fun _ _ named read =>
    ⟨_, .closeChoice named rfl rfl read, Draft.draft_reading ⟨_, frames, next⟩⟩

theorem runs_endif_else {done : List IfClause}
    (isCommand : IsCommand "endif" script (·.nameOnly "endif" = .ok ()) inner) :
    (bodyReader dialogue standardCommands).Runs
      ⟨body, (.choice done none, outer) :: frames, next⟩ (enclose inner)
      ⟨outer.addCommand (.choice done (some body.trim)), frames, next⟩ :=
  runs_of_takes isCommand fun _ _ named read =>
    ⟨_, .closeOtherwise named rfl rfl read, Draft.draft_reading ⟨_, frames, next⟩⟩

theorem runs_random {w : Number} (isCommand : IsCommand "random" script
      (fun e => ∃ found, Attributes.ofCommand e = .ok found ∧ weightOf found = .ok w) inner) :
    (bodyReader dialogue standardCommands).Runs d (enclose inner)
      ⟨.empty, (.random [] w, d.body) :: d.frames, d.next⟩ := by
  refine runs_of_takes isCommand fun _ t named ⟨found, attributes, read⟩ => ?_
  exact ⟨_, .openRandom named (by rw [Reading.allows_standard]; decide) attributes read,
    draft_inside _ _ _ _ _ _⟩

theorem runs_or {w weight : Number} {done : List RandomClause} (isCommand : IsCommand "or" script
      (fun e => ∃ found, Attributes.ofCommand e = .ok found ∧ weightOf found = .ok w) inner) :
    (bodyReader dialogue standardCommands).Runs
      ⟨body, (.random done weight, outer) :: frames, next⟩ (enclose inner)
      ⟨.empty, (.random (done ++ [⟨weight, body.trim⟩]) w, outer) :: frames, next⟩ :=
  runs_of_takes isCommand fun _ _ named ⟨_, attributes, read⟩ =>
    ⟨_, .nextRandom named rfl rfl attributes read, draft_inside _ _ _ _ _ _⟩

theorem runs_endrandom {weight : Number} {done : List RandomClause}
    (isCommand : IsCommand "endrandom" script (fun e => ∃ found, Attributes.ofCommand e = .ok found)
      inner) :
    (bodyReader dialogue standardCommands).Runs
      ⟨body, (.random done weight, outer) :: frames, next⟩ (enclose inner)
      ⟨outer.addCommand (.random (done ++ [⟨weight, body.trim⟩])), frames, next⟩ :=
  runs_of_takes isCommand fun _ _ named ⟨_, attributes⟩ =>
    ⟨_, .closeRandom named rfl rfl attributes, Draft.draft_reading ⟨_, frames, next⟩⟩

/-! Text around bodies -/

/-- Whether a draft is that of a body, with no more than blanks around its segments. -/
structure Drafts (draft b : Body) : Prop where
  merged : Segment.Merged draft.segments
  replies : draft.replies = b.replies
  padded : ∃ front back, (∀ a ∈ front, Segment.isBlankAtom a) ∧
    (∀ a ∈ back, Segment.isBlankAtom a) ∧
    Segment.atoms draft.segments = front ++ (Segment.atoms b.segments ++ back)

variable {draft b : Body}

theorem Drafts.trim (drafts : Drafts draft b) (merged : Segment.Merged b.segments)
    (trimmed : Segment.trim b.segments = b.segments) : draft.trim = b := by
  obtain ⟨merged', replies, front, back, first, last, padded⟩ := drafts
  obtain ⟨segments, others⟩ := b
  have same := Segment.trim_of_padded merged' merged trimmed first last padded
  rw [Body.trim, same, replies]

theorem Drafts.addBlank (drafts : Drafts draft b) {t : Template} (blank : t.isBlank) :
    Drafts (draft.addText t) b := by
  obtain ⟨merged, replies, front, back, first, last, padded⟩ := drafts
  refine ⟨Segment.merged_pushText merged, replies, front, back ++ t.atoms.map .inl, first, ?_, ?_⟩
  · intro a member
    rcases List.mem_append.mp member with before | here
    · exact last a before
    · obtain ⟨atom, inside, rfl⟩ := List.mem_map.mp here
      exact Template.isBlank_iff.mp blank atom inside
  · rw [Body.addText, Segment.atoms_pushText, padded, List.append_assoc, List.append_assoc]

/-- The end of a line. -/
def lineFeed : Piece := .plain ['\n'] ['\n']

theorem writes_lineFeed {cs : List Char} {ps : List Piece} (behind : Writes false cs ps) :
    Writes false ('\n' :: cs) (lineFeed :: ps) := by
  have ends : lineFeed.IsBreak := ⟨'\n', rfl, rfl⟩
  refine ⟨by rw [sourceOf_cons, behind.source]; rfl, fun p member => ?_,
    fun next clear => .cons (reads_break ends _) (behind.legible next clear)⟩
  rcases List.mem_cons.mp member with rfl | later
  · exact ⟨.inr ends, List.cons_ne_nil _ _, fun _ => List.cons_ne_nil _ _⟩
  · exact behind.sound p later

theorem clear_lineFeed {next : Option Char} (cs : List Char) : Clear (('\n' :: cs).head?.or next) :=
  clear_of_letter rfl (by decide)

theorem runs_lineFeed (dialogue : String) (frames : List (Block × Body)) (next : Nat)
    (drafts : Drafts draft b) : ∃ draft', Drafts draft' b ∧
      (bodyReader dialogue standardCommands).Runs ⟨draft, frames, next⟩ [lineFeed]
        ⟨draft', frames, next⟩ := by
  let t : Template := .ofAtoms lineFeed.atoms
  have blank : t.isBlank := by
    rw [Template.isBlank_iff, Template.atoms_ofAtoms]
    decide
  -- a blank is text in front of the first reply and nothing behind it
  by_cases none : draft.replies.isEmpty
  · have said : (bodyReader dialogue standardCommands).say ⟨draft, frames, next⟩ t =
        some ⟨draft.addText t, frames, next⟩ := if_pos none
    exact ⟨_, drafts.addBlank blank, .text rfl said .nil⟩
  · have said : (bodyReader dialogue standardCommands).say ⟨draft, frames, next⟩ t =
        some ⟨draft, frames, next⟩ := (if_neg none).trans (if_pos blank)
    exact ⟨_, drafts, .text rfl said .nil⟩

/-! Replies -/

theorem takes_reply {r : Reply} {e : Enclosed} {use : PointerUse} (number : d.next = r.id)
    (single : r.isAutoforward = false ∨ d.body.hasAutoforward = false)
    (read : replyOf dialogue r.id e = .ok (r, use)) :
    (bodyReader dialogue standardCommands).step d (.reply e) =
      .ok ⟨d.body.addReply r, d.frames, d.next + 1⟩ := by
  have read : replyOf dialogue d.next e = .ok (r, use) := by rwa [number]
  have taken : Reading.Takes dialogue standardCommands d.reading (.reply e)
      (d.reading.withReply r use) :=
    .reply read single
  exact map_eq_ok_iff.mpr ⟨_, Reading.step_of_takes taken,
    Draft.draft_reading ⟨d.body.addReply r, d.frames, d.next + 1⟩⟩

/-- A reply is read with its number from what is written of it. -/
theorem exists_replyPieces {r : Reply} (sound : r.Sound dialogue) : ∃ ps,
    Writes false r.toScript.toList ps ∧ ∀ d : Draft, d.next = r.id →
      r.isAutoforward = false ∨ d.body.hasAutoforward = false →
        (bodyReader dialogue standardCommands).Runs d ps
          ⟨d.body.addReply r, d.frames, d.next + 1⟩ := by
  obtain ⟨inner, writes, source, plain, read⟩ := exists_reply sound.spelled sound.alone
  refine ⟨replyPieces inner, source ▸ writes_reply writes, ?_⟩
  intro d number single
  refine .reply plain (fun tokens start stop cut => ?_) .nil
  obtain ⟨use, found⟩ := read tokens start stop cut r.id
  exact takes_reply number single found

theorem hasAutoforward_addReply {b : Body} {r : Reply} :
    (b.addReply r).hasAutoforward = (b.hasAutoforward || r.isAutoforward) := by
  simp [hasAutoforward, addReply]

theorem clear_replies {replies : List Reply} {next : Option Char} (clear : Clear next) :
    Clear ((String.join (replies.map fun r => "\n" ++ r.toScript)).toList.head?.or next) := by
  cases replies with
  | nil => exact clear
  | cons r rest =>
    rw [List.map_cons, String.join_cons, String.toList_append, String.toList_append]
    exact clear_lineFeed _

/-- Replies on lines of their own are read with their numbers from what is written of them. -/
theorem exists_repliesPieces {replies : List Reply} (sound : ∀ r ∈ replies, r.Sound dialogue)
    (single : replies.Pairwise fun r s => r.isAutoforward = false ∨ s.isAutoforward = false) : ∃ ps,
      Writes false (String.join (replies.map fun r => "\n" ++ r.toScript)).toList ps ∧
        ∀ draft b frames next, Drafts draft b → Counts next (replies.map (·.id)) →
          (∀ r ∈ replies, r.isAutoforward = false ∨ draft.hasAutoforward = false) →
            ∃ draft', Drafts draft' ⟨b.segments, b.replies ++ replies⟩ ∧
              (bodyReader dialogue standardCommands).Runs ⟨draft, frames, next⟩ ps
                ⟨draft', frames, next + replies.length⟩ := by
  -- the draft stays open, as each reply is read behind those in front of it
  induction replies with
  | nil =>
    refine ⟨[], writes_nil, fun draft b frames next drafts _ _ => ⟨draft, ?_, .nil⟩⟩
    obtain ⟨segments, others⟩ := b
    rwa [List.append_nil]
  | cons r rest ih =>
    obtain ⟨apart, later⟩ := List.pairwise_cons.mp single
    obtain ⟨qs, writesRest, runsRest⟩ :=
      ih (fun s member => sound s (List.mem_cons_of_mem r member)) later
    obtain ⟨ps, writes, runs⟩ := exists_replyPieces (sound r List.mem_cons_self)
    refine ⟨lineFeed :: (ps ++ qs), ?_, fun draft b frames next drafts counts alone => ?_⟩
    · rw [List.map_cons, String.join_cons, String.toList_append, String.toList_append,
        List.append_assoc]
      exact writes_lineFeed (writes.append writesRest fun _ => clear_replies)
    · have number : next = r.id := by
        have first := congrArg List.head? counts
        simpa [List.range'_succ] using first.symm
      have countsRest : Counts (next + 1) (rest.map (·.id)) :=
        (@counts_append_iff next [r.id] _).mp counts |>.2
      obtain ⟨said, saidDrafts, run⟩ := runs_lineFeed dialogue frames next drafts
      have same : said.hasAutoforward = draft.hasAutoforward := by
        rw [hasAutoforward, hasAutoforward, saidDrafts.replies, drafts.replies]
      have taken := runs ⟨said, frames, next⟩ number
        (by rw [same]; exact alone r List.mem_cons_self)
      have added : Drafts (said.addReply r) ⟨b.segments, b.replies ++ [r]⟩ := by
        obtain ⟨merged, others, padded⟩ := saidDrafts
        exact ⟨merged, congrArg (· ++ [r]) others, padded⟩
      obtain ⟨last, lastDrafts, runLast⟩ := runsRest _ _ frames (next + 1) added countsRest
        (fun s member => by
          rw [hasAutoforward_addReply, same]
          rcases alone s (List.mem_cons_of_mem r member) with here | none
          · exact .inl here
          · rcases apart s member with first | second
            · exact .inr (by rw [none, first]; rfl)
            · exact .inl second)
      refine ⟨last, ?_, ?_⟩
      · simpa using lastDrafts
      · have whole := run.append (taken.append runLast)
        rwa [List.singleton_append, Nat.add_assoc, Nat.add_comm 1] at whole

end Body

/-! Commands -/

open Body

variable {dialogue : String}

/-- Whether a script that ends a block of conditions is read as the clauses and the default that it
has, the replies in it with their numbers. -/
def EndsChoice (dialogue script : String) (numbers : List Nat) (clauses : List IfClause)
    (otherwise : Option Body) : Prop :=
  ∃ ps, Joins script.toList ps ∧
    ∀ body outer frames next done guard, Counts next numbers →
      (bodyReader dialogue standardCommands).Runs
        ⟨body, (.choice done (some guard), outer) :: frames, next⟩ ps
        ⟨outer.addCommand (.choice (done ++ ⟨guard, body.trim⟩ :: clauses) otherwise), frames,
          next + numbers.length⟩

/-- Whether a script that ends a block of weights is read as the clauses that it has, the replies in
it with their numbers. -/
def EndsRandom (dialogue script : String) (numbers : List Nat) (clauses : List RandomClause) :
    Prop :=
  ∃ ps, Joins script.toList ps ∧
    ∀ body outer frames next done weight, Counts next numbers →
      (bodyReader dialogue standardCommands).Runs
        ⟨body, (.random done weight, outer) :: frames, next⟩ ps
        ⟨outer.addCommand (.random (done ++ ⟨weight, body.trim⟩ :: clauses)), frames,
          next + numbers.length⟩

/-- Whether the script of a command is read as a command. -/
def Command.Written (dialogue : String) (c : Command) : Prop :=
  ∃ ps, Joins c.toScript.toList ps ∧
    ∀ d : Draft, d.body.replies = [] → Counts d.next c.numbers →
      (bodyReader dialogue standardCommands).Runs d ps
        ⟨d.body.addCommand c.settled, d.frames, d.next + c.numbers.length⟩

/-- Whether the script of some segments is read as the segments behind others. -/
def SegmentsWritten (dialogue : String) (segments : List (Segment Command)) : Prop :=
  ∃ ps, Writes false (segmentsScript segments).toList ps ∧
    ∀ draft frames next, draft.replies = [] → Segment.Merged draft.segments →
      Counts next (numbersOfSegments segments) → ∃ draft', draft'.replies = [] ∧
        Segment.Merged draft'.segments ∧ Segment.atoms draft'.segments =
          Segment.atoms draft.segments ++ Segment.atoms (settledSegments segments) ∧
            (bodyReader dialogue standardCommands).Runs ⟨draft, frames, next⟩ ps
              ⟨draft', frames, next + (numbersOfSegments segments).length⟩

/-- Whether the script of a body is read as the body, blanks around it left out. -/
def Body.Written (dialogue : String) (b : Body) : Prop :=
  ∃ ps, Writes false b.toScript.toList ps ∧
    ∀ draft frames next, Drafts draft .empty → Counts next b.numbers →
      ∃ draft', Drafts draft' b.settled ∧
        (bodyReader dialogue standardCommands).Runs ⟨draft, frames, next⟩ ps
          ⟨draft', frames, next + b.numbers.length⟩

theorem Body.drafts_empty : Drafts .empty .empty :=
  ⟨trivial, rfl, [], [], by simp, by simp, rfl⟩

variable {b : Body}

theorem Body.trim_of_drafts {draft : Body} (whole : (Body.Law.scripted dialogue).whole b)
    (drafts : Drafts draft b.settled) : draft.trim = b.settled := by
  obtain ⟨segments, replies⟩ := b
  obtain ⟨merged, trimmed, _⟩ := whole
  exact drafts.trim (merged_settled merged) (trim_settled merged trimmed)

/-- A body on lines of its own is read as the body. -/
theorem Body.Written.lines (written : b.Written dialogue)
    (whole : (Body.Law.scripted dialogue).whole b) : ∃ ps,
      Joins ('\n' :: (b.toScript.toList ++ ['\n'])) ps ∧
        ∀ frames next, Counts next b.numbers → ∃ draft, draft.trim = b.settled ∧
          (bodyReader dialogue standardCommands).Runs ⟨.empty, frames, next⟩ ps
            ⟨draft, frames, next + b.numbers.length⟩ := by
  obtain ⟨ps, writes, runs⟩ := written
  refine ⟨lineFeed :: (ps ++ [lineFeed]), ?_, fun frames next counts => ?_⟩
  · intro cs qs behind
    have all := writes_lineFeed
      (writes.append (writes_lineFeed behind) fun _ _ => clear_lineFeed cs)
    rwa [List.cons_append, List.cons_append, List.append_assoc, List.append_assoc]
  · obtain ⟨first, drafts, begins⟩ := runs_lineFeed dialogue frames next drafts_empty
    obtain ⟨second, drafts, goes⟩ := runs first frames next drafts counts
    obtain ⟨third, drafts, ends⟩ := runs_lineFeed dialogue frames (next + b.numbers.length) drafts
    have all := begins.append (goes.append ends)
    exact ⟨third, trim_of_drafts whole drafts, all⟩

theorem endsChoice_none : EndsChoice dialogue (otherwiseScript none ++ "<<endif>>") [] [] none := by
  obtain ⟨inner, isEnd⟩ := exists_word "endif" (by decide)
  exact ⟨enclose inner, isEnd.joins, fun _ _ _ _ _ _ _ => runs_endif isEnd⟩

theorem endsChoice_some (written : b.Written dialogue)
    (whole : (Body.Law.scripted dialogue).whole b) :
    EndsChoice dialogue (otherwiseScript (some b) ++ "<<endif>>") b.numbers []
      (some b.settled) := by
  obtain ⟨ending, isEnd⟩ := exists_word "endif" (by decide)
  obtain ⟨opening, isElse⟩ := exists_word "else" (by decide)
  obtain ⟨ps, joins, runs⟩ := written.lines whole
  refine ⟨enclose opening ++ (ps ++ enclose ending), ?_,
    fun body outer frames next done guard counts => ?_⟩
  · simpa [otherwiseScript] using isElse.joins.append (joins.append isEnd.joins)
  · obtain ⟨draft, same, goes⟩ := runs _ next counts
    rw [← same]
    exact (runs_else isElse).append (goes.append (runs_endif_else isEnd))

theorem endsChoice_cons {script : String} {numbers : List Nat} {clauses : List IfClause}
    {otherwise : Option Body} {e : Expr} (condition : (Body.Law.scripted dialogue).condition e)
    (written : b.Written dialogue) (whole : (Body.Law.scripted dialogue).whole b)
    (ends : EndsChoice dialogue script numbers clauses otherwise) :
    EndsChoice dialogue ("<<" ++ "elseif" ++ " " ++ e.toText ++ ">>\n" ++ b.toScript ++ "\n" ++
      script)
      (b.numbers ++ numbers) (⟨e, b.settled⟩ :: clauses) otherwise := by
  obtain ⟨qs, joinsRest, runsRest⟩ := ends
  obtain ⟨opening, isElseif⟩ := exists_guard "elseif" (by decide) condition.1 condition.2
  obtain ⟨ps, joins, runs⟩ := written.lines whole
  refine ⟨enclose opening ++ (ps ++ qs), ?_, fun body outer frames next done guard counts => ?_⟩
  · simpa using isElseif.joins.append (joins.append joinsRest)
  · obtain ⟨first, second⟩ := counts_append_iff.mp counts
    obtain ⟨draft, same, goes⟩ := runs _ next first
    have last := runsRest draft outer frames _ (done ++ [⟨guard, body.trim⟩]) e second
    have whole := (runs_elseif isElseif).append (goes.append last)
    rw [same, List.append_assoc, List.singleton_append, Nat.add_assoc,
      ← List.length_append] at whole
    exact whole

theorem written_choice {script : String} {numbers : List Nat} {clauses : List IfClause}
    {otherwise : Option Body} {e : Expr} (condition : (Body.Law.scripted dialogue).condition e)
    (written : b.Written dialogue) (whole : (Body.Law.scripted dialogue).whole b)
    (ends : EndsChoice dialogue script numbers clauses otherwise) : ∃ ps,
      Joins ("<<" ++ "if" ++ " " ++ e.toText ++ ">>\n" ++ b.toScript ++ "\n" ++ script).toList ps ∧
        ∀ d : Draft, Counts d.next (b.numbers ++ numbers) →
          (bodyReader dialogue standardCommands).Runs d ps
            ⟨d.body.addCommand (.choice (⟨e, b.settled⟩ :: clauses) otherwise), d.frames,
              d.next + (b.numbers ++ numbers).length⟩ := by
  obtain ⟨qs, joinsRest, runsRest⟩ := ends
  obtain ⟨opening, isIf⟩ := exists_guard "if" (by decide) condition.1 condition.2
  obtain ⟨ps, joins, runs⟩ := written.lines whole
  refine ⟨enclose opening ++ (ps ++ qs), ?_, fun d counts => ?_⟩
  · simpa using isIf.joins.append (joins.append joinsRest)
  · obtain ⟨first, second⟩ := counts_append_iff.mp counts
    obtain ⟨draft, same, goes⟩ := runs _ d.next first
    have last := runsRest draft d.body d.frames _ [] e second
    have whole := (runs_if isIf).append (goes.append last)
    rw [same, Nat.add_assoc, ← List.length_append] at whole
    exact whole

theorem endsRandom_nil : EndsRandom dialogue "<<endrandom>>" [] [] := by
  obtain ⟨inner, isEnd⟩ := exists_endrandom
  exact ⟨enclose inner, isEnd.joins, fun _ _ _ _ _ _ _ => runs_endrandom isEnd⟩

theorem endsRandom_cons {script : String} {numbers : List Nat} {clauses : List RandomClause}
    {w : Number} (weighs : Weighs w) (written : b.Written dialogue)
    (whole : (Body.Law.scripted dialogue).whole b)
    (ends : EndsRandom dialogue script numbers clauses) :
    EndsRandom dialogue ("<<" ++ "or" ++ weightAttribute w ++ ">>\n" ++ b.toScript ++ "\n" ++
      script)
      (b.numbers ++ numbers) (⟨settledWeight w, b.settled⟩ :: clauses) := by
  obtain ⟨qs, joinsRest, runsRest⟩ := ends
  obtain ⟨opening, isOr⟩ := exists_weight "or" (by decide) weighs
  obtain ⟨ps, joins, runs⟩ := written.lines whole
  refine ⟨enclose opening ++ (ps ++ qs), ?_, fun body outer frames next done weight counts => ?_⟩
  · simpa using isOr.joins.append (joins.append joinsRest)
  · obtain ⟨first, second⟩ := counts_append_iff.mp counts
    obtain ⟨draft, same, goes⟩ := runs _ next first
    have last := runsRest draft outer frames _ (done ++ [⟨weight, body.trim⟩])
        (settledWeight w) second
    have whole := (runs_or isOr).append (goes.append last)
    rw [same, List.append_assoc, List.singleton_append, Nat.add_assoc,
      ← List.length_append] at whole
    exact whole

theorem written_random {script : String} {numbers : List Nat} {clauses : List RandomClause}
    {w : Number} (weighs : Weighs w) (written : b.Written dialogue)
    (whole : (Body.Law.scripted dialogue).whole b)
    (ends : EndsRandom dialogue script numbers clauses) :
    ∃ ps, Joins
      ("<<" ++ "random" ++ weightAttribute w ++ ">>\n" ++ b.toScript ++ "\n" ++ script).toList ps ∧
        ∀ d : Draft, Counts d.next (b.numbers ++ numbers) →
          (bodyReader dialogue standardCommands).Runs d ps
            ⟨d.body.addCommand (.random (⟨settledWeight w, b.settled⟩ :: clauses)), d.frames,
              d.next + (b.numbers ++ numbers).length⟩ := by
  obtain ⟨qs, joinsRest, runsRest⟩ := ends
  obtain ⟨opening, isRandom⟩ := exists_weight "random" (by decide) weighs
  obtain ⟨ps, joins, runs⟩ := written.lines whole
  refine ⟨enclose opening ++ (ps ++ qs), ?_, fun d counts => ?_⟩
  · simpa using isRandom.joins.append (joins.append joinsRest)
  · obtain ⟨first, second⟩ := counts_append_iff.mp counts
    obtain ⟨draft, same, goes⟩ := runs _ d.next first
    have last := runsRest draft d.body d.frames _ [] (settledWeight w) second
    have whole := (runs_random isRandom).append (goes.append last)
    rw [same, Nat.add_assoc, ← List.length_append] at whole
    exact whole

theorem Body.whole_of_meets {law : Body.Law} {b : Body} (meets : b.Meets law) : law.whole b := by
  obtain ⟨segments, replies⟩ := b
  exact meets.1

theorem Command.head_toScript {law : Body.Law} {c : Command} (meets : c.Meets law) :
    c.toScript.toList.head? = some '<' := by
  match c with
  | .action a => simp [Command.toScript, Action.toScript]
  | .set s => simp [Command.toScript, Assignment.toScript]
  | .choice [] otherwise => exact (meets.1 rfl).elim
  | .choice (⟨condition, body⟩ :: rest) otherwise => simp [Command.toScript, clausesScript]
  | .random [] => exact (meets.1 rfl).elim
  | .random (⟨weight, body⟩ :: rest) => simp [Command.toScript, weightedScript]
  | .input i => simp [Command.toScript, Input.toScript_eq]

/-- Text is followed by a command or by what stands behind the segments. -/
theorem clear_segments {law : Body.Law} {segments : List (Segment Command)}
    (meet : SegmentsMeet law segments) (first : ∀ s ∈ segments.head?, s.isText = false)
    {next : Option Char} (clear : Clear next) :
    Clear ((segmentsScript segments).toList.head?.or next) := by
  cases segments with
  | nil => exact clear
  | cons s rest =>
    cases s with
    | text t => cases first _ rfl
    | command c =>
      rw [segmentsScript, String.toList_append, List.head?_append, c.head_toScript meet.1]
      exact clear_of_letter rfl (by decide)

theorem runs_text {draft : Body} {frames : List (Block × Body)} {next : Nat} {ps : List Piece}
    (textual : ∀ p ∈ ps, p.isTextual) (none : draft.replies = []) :
    (bodyReader dialogue standardCommands).Runs ⟨draft, frames, next⟩ ps
      ⟨⟨Segment.pushPieces draft.segments ps, draft.replies⟩, frames, next⟩ := by
  induction ps generalizing draft with
  | nil =>
    obtain ⟨segments, replies⟩ := draft
    exact .nil
  | cons p rest ih =>
    have said :
        (bodyReader dialogue standardCommands).say ⟨draft, frames, next⟩ (.ofAtoms p.atoms) =
          some ⟨draft.addText (.ofAtoms p.atoms), frames, next⟩ := if_pos (by rw [none]; rfl)
    exact .text (textual p List.mem_cons_self) said
      (ih (fun q member => textual q (List.mem_cons_of_mem p member)) none)

theorem segmentsWritten_text {t : Template} {rest : List (Segment Command)}
    (readable : Atom.Readable t.atoms) (written : SegmentsWritten dialogue rest)
    (clear : ∀ next, Clear next → Clear ((segmentsScript rest).toList.head?.or next)) :
    SegmentsWritten dialogue (.text t :: rest) := by
  obtain ⟨ps, writes, runs⟩ := written
  refine ⟨bodyPieces false t.atoms ++ ps, ?_, fun draft frames next none merged counts => ?_⟩
  · rw [segmentsScript, String.toList_append]
    exact (writes_text readable).append writes clear
  · have said : (bodyReader dialogue standardCommands).Runs ⟨draft, frames, next⟩
        (bodyPieces false t.atoms)
        ⟨⟨Segment.pushPieces draft.segments (bodyPieces false t.atoms), draft.replies⟩, frames,
          next⟩ :=
      runs_text textual_bodyPieces none
    obtain ⟨draft', none', merged', atoms, goes⟩ := runs
      ⟨Segment.pushPieces draft.segments (bodyPieces false t.atoms), draft.replies⟩ frames next none
      (Segment.merged_pushPieces merged _) counts
    refine ⟨draft', none', merged', ?_, said.append goes⟩
    rw [atoms, Segment.atoms_pushPieces, atoms_bodyPieces, List.append_assoc]
    rfl

theorem segmentsWritten_command {c : Command} {rest : List (Segment Command)}
    (here : c.Written dialogue) (written : SegmentsWritten dialogue rest) :
    SegmentsWritten dialogue (.command c :: rest) := by
  obtain ⟨ps, joins, runs⟩ := here
  obtain ⟨qs, writesRest, runsRest⟩ := written
  refine ⟨ps ++ qs, ?_, fun draft frames next none merged counts => ?_⟩
  · rw [segmentsScript, String.toList_append]
    exact joins _ _ writesRest
  · obtain ⟨first, second⟩ := counts_append_iff.mp counts
    have taken := runs ⟨draft, frames, next⟩ none first
    obtain ⟨draft', none', merged', atoms, goes⟩ :=
      runsRest (draft.addCommand c.settled) frames _ none
      (Segment.merged_push merged trivial) second
    refine ⟨draft', none', merged', ?_, ?_⟩
    · rw [atoms, Body.addCommand, Body.addSegment, Segment.atoms_push, List.append_assoc]
      rfl
    · have whole := taken.append goes
      rwa [Nat.add_assoc, ← List.length_append] at whole

mutual

theorem Command.written (c : Command) (meets : c.Meets (Body.Law.scripted dialogue)) :
    c.Written dialogue := by
  match c with
  | .action a =>
    obtain ⟨inner, isAction⟩ := exists_action meets
    exact ⟨enclose inner, isAction.joins, fun d first _ => runs_action first isAction⟩
  | .set s =>
    obtain ⟨inner, isSet⟩ := exists_set meets.1 meets.2
    exact ⟨enclose inner, isSet.joins, fun d first _ => runs_set first isSet⟩
  | .choice [] otherwise => exact (meets.1 rfl).elim
  | .choice (⟨condition, body⟩ :: rest) otherwise =>
    obtain ⟨_, first, second⟩ := meets
    -- the clauses come from the last to the first, since each is closed by what follows it
    have ends := endsChoice_clauses rest first.2.2 (endsChoice_option otherwise second)
    obtain ⟨ps, joins, runs⟩ := written_choice first.1 (body.written first.2.1)
      (Body.whole_of_meets first.2.1) ends
    refine ⟨ps, ?_, fun d _ counts => ?_⟩
    · simpa [Command.toScript, clausesScript] using joins
    · simp only [Command.numbers, numbersOfClauses, List.append_assoc] at counts ⊢
      simpa [Command.settled, settledClauses] using runs d counts
  | .random [] => exact (meets.1 rfl).elim
  | .random (⟨weight, body⟩ :: rest) =>
    obtain ⟨_, first⟩ := meets
    obtain ⟨ps, joins, runs⟩ := written_random first.1 (body.written first.2.1)
      (Body.whole_of_meets first.2.1) (endsRandom_clauses rest first.2.2)
    refine ⟨ps, ?_, fun d _ counts => runs d counts⟩
    simpa [Command.toScript, weightedScript] using joins
  | .input i => exact meets.elim

theorem endsChoice_clauses (clauses : List IfClause)
    (meet : ClausesMeet (Body.Law.scripted dialogue) clauses) {script : String} {numbers : List Nat}
    {otherwise : Option Body} (ends : EndsChoice dialogue script numbers [] otherwise) :
    EndsChoice dialogue (clausesScript "elseif" clauses ++ script)
      (numbersOfClauses clauses ++ numbers)
      (settledClauses clauses) otherwise := by
  match clauses with
  | [] => simpa [clausesScript, numbersOfClauses, settledClauses] using ends
  | ⟨condition, body⟩ :: rest =>
    have later := endsChoice_clauses rest meet.2.2 ends
    have whole := endsChoice_cons meet.1 (body.written meet.2.1)
        (Body.whole_of_meets meet.2.1) later
    rw [numbersOfClauses, List.append_assoc, settledClauses]
    simpa only [clausesScript, String.append_assoc] using whole

theorem endsChoice_option (o : Option Body) (meets : OptionMeets (Body.Law.scripted dialogue) o) :
    EndsChoice dialogue (otherwiseScript o ++ "<<endif>>") (numbersOfOption o) []
      (settledOption o) := by
  match o with
  | none => exact endsChoice_none
  | some body => exact endsChoice_some (body.written meets) (Body.whole_of_meets meets)

theorem endsRandom_clauses (clauses : List RandomClause)
    (meet : WeightedMeet (Body.Law.scripted dialogue) clauses) :
    EndsRandom dialogue (weightedScript "or" clauses ++ "<<endrandom>>") (numbersOfWeighted clauses)
      (settledWeighted clauses) := by
  match clauses with
  | [] => exact endsRandom_nil
  | ⟨weight, body⟩ :: rest =>
    have later := endsRandom_clauses rest meet.2.2
    have whole := endsRandom_cons meet.1 (body.written meet.2.1)
        (Body.whole_of_meets meet.2.1) later
    rw [numbersOfWeighted, settledWeighted]
    simpa only [weightedScript, String.append_assoc] using whole

theorem segments_written (segments : List (Segment Command)) (merged : Segment.Merged segments)
    (meet : SegmentsMeet (Body.Law.scripted dialogue) segments) :
    SegmentsWritten dialogue segments := by
  match segments with
  | [] =>
    refine ⟨[], writes_nil, fun draft frames next none merged _ => ⟨draft, none, merged, ?_, .nil⟩⟩
    rw [settledSegments, Segment.atoms, List.append_nil]
  | .text t :: rest =>
    obtain ⟨_, stop, later⟩ := merged
    exact segmentsWritten_text meet.1 (segments_written rest later meet.2)
      fun next => clear_segments meet.2 stop
  | .command c :: rest =>
    exact segmentsWritten_command (c.written meet.1) (segments_written rest merged meet.2)

theorem Body.written (b : Body) (meets : b.Meets (Body.Law.scripted dialogue)) :
    b.Written dialogue := by
  match b with
  | ⟨segments, replies⟩ =>
    obtain ⟨whole, meet, sound⟩ := meets
    obtain ⟨ps, writes, runs⟩ := segments_written segments whole.1 meet
    obtain ⟨qs, writesReplies, runsReplies⟩ := exists_repliesPieces sound whole.2.2
    refine ⟨ps ++ qs, ?_, fun draft frames next drafts counts => ?_⟩
    · rw [Body.toScript, String.toList_append]
      exact writes.append writesReplies fun _ => clear_replies
    · obtain ⟨merged, none, front, back, first, last, padded⟩ := drafts
      obtain ⟨countsSegments, countsReplies⟩ := counts_append_iff.mp counts
      obtain ⟨draft', none', merged', atoms, goes⟩ :=
        runs draft frames next none merged countsSegments
      -- the blanks in front of the body stay in front of its segments
      have drafted : Drafts draft' ⟨settledSegments segments, []⟩ := by
        refine ⟨merged', none', front ++ back, [], fun a member => ?_, by simp, ?_⟩
        · rcases List.mem_append.mp member with before | behind
          · exact first a before
          · exact last a behind
        · rw [atoms, padded, List.append_nil]
          rfl
      have alone : draft'.hasAutoforward = false := by
        rw [Body.hasAutoforward, none']
        rfl
      obtain ⟨draft'', drafts, ends⟩ :=
        runsReplies draft' _ frames _ drafted countsReplies fun r _ => .inr alone
      have all := goes.append ends
      rw [Nat.add_assoc, ← List.length_map (fun r : Reply => r.id), ← List.length_append] at all
      exact ⟨draft'', drafts, all⟩

end

/-- The tokens of a script are cut from its pieces. -/
theorem Tokenizer.readText_of_writes {cs : List Char} {ps : List Piece}
    (writes : Writes false cs ps) :
    ∃ tokens, readText (String.ofList cs) = .ok tokens ∧ Cut ps tokens := by
  obtain ⟨rfl, sound, legible⟩ := writes
  exact readText_of_legible (legible none (by simp [Clear])) (fun p member => (sound p member).whole)
    (fun p member => (sound p member).some) fun p member => (sound p member).filled

/-- A script whose pieces a reader of bodies gets through is read as the body that this comes to. -/
theorem Body.ofText_of_runs {script : String} {ps : List Piece} {body : Body} {next : Nat}
    (writes : Writes false script.toList ps)
    (run : (bodyReader dialogue standardCommands).Runs ⟨.empty, [], 1⟩ ps ⟨body, [], next⟩) :
    ∃ uses, Body.ofText dialogue standardCommands script = .ok (body.trim, uses) := by
  obtain ⟨tokens, read, cut⟩ := readText_of_writes writes
  rw [String.ofList_toList] at read
  obtain ⟨s, fold, last⟩ := exists_reading (s := .start 1) rfl (Reader.fold_of_runs run cut)
  have frames : s.frames = [] := List.map_eq_nil_iff.mp (congrArg Draft.frames last)
  have same : s.body = body := congrArg Draft.body last
  refine ⟨s.uses, ?_⟩
  rw [ofText, read, ok_bind, ofTokens, fold, ok_bind, Reading.finish, frames, same]

/-- A body that obeys the law is read from its script, up to the form of its weights. -/
theorem Body.ofText_toScript {b : Body} (meets : b.Meets (Body.Law.scripted dialogue))
    (counts : Counts 1 b.numbers) :
    ∃ uses, Body.ofText dialogue standardCommands b.toScript = .ok (b.settled, uses) := by
  obtain ⟨ps, writes, runs⟩ := b.written meets
  obtain ⟨draft, drafts, run⟩ := runs .empty [] 1 drafts_empty counts
  rw [← trim_of_drafts (whole_of_meets meets) drafts]
  exact ofText_of_runs writes run

end Parley
