import Parley.Proofs.Body.Actions
import Parley.Proofs.Body.Law

/-!
Bodies that differ in nothing but the form of a weight, and the numbers of the replies of a body.
-/
namespace Parley

mutual

/-- A command with the weights in it as they are read from their texts. -/
def Command.settled : Command → Command
  | .action a => .action a
  | .set s => .set s
  | .choice clauses otherwise => .choice (settledClauses clauses) (settledOption otherwise)
  | .random clauses => .random (settledWeighted clauses)
  | .input i => .input i

def settledClauses : List IfClause → List IfClause
  | [] => []
  | ⟨condition, body⟩ :: rest => ⟨condition, body.settled⟩ :: settledClauses rest

def settledWeighted : List RandomClause → List RandomClause
  | [] => []
  | ⟨weight, body⟩ :: rest => ⟨settledWeight weight, body.settled⟩ :: settledWeighted rest

def settledOption : Option Body → Option Body
  | none => none
  | some body => some body.settled

def settledSegments : List (Segment Command) → List (Segment Command)
  | [] => []
  | .text t :: rest => .text t :: settledSegments rest
  | .command c :: rest => .command c.settled :: settledSegments rest

def Body.settled : Body → Body
  | ⟨segments, replies⟩ => ⟨settledSegments segments, replies⟩

end

mutual

/-- Whether two commands are the same where weights are compared as numbers. -/
inductive Command.Same : Command → Command → Prop
  | action (a : Action) : Command.Same (.action a) (.action a)
  | set (s : Assignment) : Command.Same (.set s) (.set s)
  | choice {clauses others : List IfClause} {otherwise instead : Option Body}
      (first : ClausesSame clauses others) (second : OptionSame otherwise instead) :
      Command.Same (.choice clauses otherwise) (.choice others instead)
  | random {clauses others : List RandomClause} (same : WeightedSame clauses others) :
      Command.Same (.random clauses) (.random others)
  | input (i : Input) : Command.Same (.input i) (.input i)

inductive ClausesSame : List IfClause → List IfClause → Prop
  | nil : ClausesSame [] []
  | cons {condition : Expr} {b c : Body} {rest others : List IfClause} (body : Body.Same b c)
      (later : ClausesSame rest others) :
      ClausesSame (⟨condition, b⟩ :: rest) (⟨condition, c⟩ :: others)

inductive WeightedSame : List RandomClause → List RandomClause → Prop
  | nil : WeightedSame [] []
  | cons {w v : Number} {b c : Body} {rest others : List RandomClause}
      (weight : Value.same w.value v.value) (body : Body.Same b c)
      (later : WeightedSame rest others) :
      WeightedSame (⟨w, b⟩ :: rest) (⟨v, c⟩ :: others)

inductive OptionSame : Option Body → Option Body → Prop
  | none : OptionSame none none
  | some {b c : Body} (same : Body.Same b c) : OptionSame (some b) (some c)

inductive SegmentsSame : List (Segment Command) → List (Segment Command) → Prop
  | nil : SegmentsSame [] []
  | text (t : Template) {rest others : List (Segment Command)} (later : SegmentsSame rest others) :
      SegmentsSame (.text t :: rest) (.text t :: others)
  | command {c d : Command} {rest others : List (Segment Command)} (same : Command.Same c d)
      (later : SegmentsSame rest others) : SegmentsSame (.command c :: rest) (.command d :: others)

/-- Whether two bodies are the same where weights are compared as numbers. -/
inductive Body.Same : Body → Body → Prop
  | intro {segments others : List (Segment Command)} {replies : List Reply}
      (same : SegmentsSame segments others) : Body.Same ⟨segments, replies⟩ ⟨others, replies⟩

end

section Settled

variable {law : Body.Law}

mutual

theorem Command.same_settled (weighs : ∀ w, law.weight w → Weighs w) (c : Command)
    (meets : c.Meets law) : c.Same c.settled := by
  cases c with
  | action a => exact .action a
  | set s => exact .set s
  | choice clauses otherwise =>
    exact .choice (clausesSame_settled weighs clauses meets.2.1)
      (optionSame_settled weighs otherwise meets.2.2)
  | random clauses => exact .random (weightedSame_settled weighs clauses meets.2)
  | input i => exact .input i

theorem clausesSame_settled (weighs : ∀ w, law.weight w → Weighs w) (clauses : List IfClause)
    (meet : ClausesMeet law clauses) : ClausesSame clauses (settledClauses clauses) := by
  match clauses with
  | [] => exact .nil
  | ⟨condition, body⟩ :: rest =>
    exact .cons (body.same_settled weighs meet.2.1) (clausesSame_settled weighs rest meet.2.2)

theorem weightedSame_settled (weighs : ∀ w, law.weight w → Weighs w) (clauses : List RandomClause)
    (meet : WeightedMeet law clauses) : WeightedSame clauses (settledWeighted clauses) := by
  match clauses with
  | [] => exact .nil
  | ⟨weight, body⟩ :: rest =>
    obtain ⟨_, _, _, _, _, _, same⟩ := exists_settled (weighs weight meet.1)
    exact .cons same (body.same_settled weighs meet.2.1) (weightedSame_settled weighs rest meet.2.2)

theorem optionSame_settled (weighs : ∀ w, law.weight w → Weighs w) (o : Option Body)
    (meets : OptionMeets law o) : OptionSame o (settledOption o) := by
  match o with
  | none => exact .none
  | some body => exact .some (body.same_settled weighs meets)

theorem segmentsSame_settled (weighs : ∀ w, law.weight w → Weighs w)
    (segments : List (Segment Command)) (meet : SegmentsMeet law segments) :
    SegmentsSame segments (settledSegments segments) := by
  match segments with
  | [] => exact .nil
  | .text t :: rest => exact .text t (segmentsSame_settled weighs rest meet.2)
  | .command c :: rest =>
    exact .command (c.same_settled weighs meet.1) (segmentsSame_settled weighs rest meet.2)

theorem Body.same_settled (weighs : ∀ w, law.weight w → Weighs w) (b : Body) (meets : b.Meets law) :
    b.Same b.settled := by
  match b with
  | ⟨segments, replies⟩ => exact .intro (segmentsSame_settled weighs segments meets.2.1)

end

mutual

theorem Command.toScript_settled (weighs : ∀ w, law.weight w → Weighs w) (c : Command)
    (meets : c.Meets law) : c.settled.toScript = c.toScript := by
  cases c with
  | action a => rfl
  | set s => rfl
  | choice clauses otherwise =>
    rw [Command.settled, Command.toScript, Command.toScript,
      clausesScript_settled weighs clauses meets.2.1,
      otherwiseScript_settled weighs otherwise meets.2.2]
  | random clauses =>
    rw [Command.settled, Command.toScript, Command.toScript,
      weightedScript_settled weighs clauses meets.2]
  | input i => rfl

theorem clausesScript_settled (weighs : ∀ w, law.weight w → Weighs w) (clauses : List IfClause)
    (meet : ClausesMeet law clauses) {keyword : String} :
    clausesScript keyword (settledClauses clauses) = clausesScript keyword clauses := by
  match clauses with
  | [] => rfl
  | ⟨condition, body⟩ :: rest =>
    rw [settledClauses, clausesScript, clausesScript, body.toScript_settled weighs meet.2.1,
      clausesScript_settled weighs rest meet.2.2]

theorem weightedScript_settled (weighs : ∀ w, law.weight w → Weighs w) (clauses : List RandomClause)
    (meet : WeightedMeet law clauses) {keyword : String} :
    weightedScript keyword (settledWeighted clauses) = weightedScript keyword clauses := by
  match clauses with
  | [] => rfl
  | ⟨weight, body⟩ :: rest =>
    obtain ⟨_, _, _, _, text, unit, _⟩ := exists_settled (weighs weight meet.1)
    have written : weightAttribute (settledWeight weight) = weightAttribute weight := by
      rw [weightAttribute, weightAttribute, text, unit]
    rw [settledWeighted, weightedScript, weightedScript, written,
      body.toScript_settled weighs meet.2.1, weightedScript_settled weighs rest meet.2.2]

theorem otherwiseScript_settled (weighs : ∀ w, law.weight w → Weighs w) (o : Option Body)
    (meets : OptionMeets law o) : otherwiseScript (settledOption o) = otherwiseScript o := by
  match o with
  | none => rfl
  | some body =>
    rw [settledOption, otherwiseScript, otherwiseScript, body.toScript_settled weighs meets]

theorem segmentsScript_settled (weighs : ∀ w, law.weight w → Weighs w)
    (segments : List (Segment Command)) (meet : SegmentsMeet law segments) :
    segmentsScript (settledSegments segments) = segmentsScript segments := by
  match segments with
  | [] => rfl
  | .text t :: rest =>
    rw [settledSegments, segmentsScript, segmentsScript, segmentsScript_settled weighs rest meet.2]
  | .command c :: rest =>
    rw [settledSegments, segmentsScript, segmentsScript, c.toScript_settled weighs meet.1,
      segmentsScript_settled weighs rest meet.2]

/-- The form of the weights does not show in the script. -/
theorem Body.toScript_settled (weighs : ∀ w, law.weight w → Weighs w) (b : Body)
    (meets : b.Meets law) : b.settled.toScript = b.toScript := by
  match b with
  | ⟨segments, replies⟩ =>
    rw [Body.settled, Body.toScript, Body.toScript,
      segmentsScript_settled weighs segments meets.2.1]

end

end Settled

/-! Segments -/

theorem atoms_settled (segments : List (Segment Command)) :
    Segment.atoms (settledSegments segments) =
      (Segment.atoms segments).map (Sum.map id Command.settled) := by
  induction segments with
  | nil => rfl
  | cons s rest ih =>
    cases s with
    | text t =>
      rw [settledSegments, Segment.atoms, Segment.atoms, ih, List.map_append, List.map_map]
      rfl
    | command c =>
      rw [settledSegments, Segment.atoms, Segment.atoms, ih]
      rfl

theorem merged_settled {segments : List (Segment Command)} (merged : Segment.Merged segments) :
    Segment.Merged (settledSegments segments) := by
  induction segments with
  | nil => trivial
  | cons s rest ih =>
    cases s with
    | text t =>
      obtain ⟨some, stop, later⟩ := merged
      refine ⟨some, ?_, ih later⟩
      cases rest with
      | nil => simp [settledSegments]
      | cons u others =>
        cases u with
        | text v => cases stop _ rfl
        | command c =>
          rintro s ⟨⟩
          rfl
    | command c => exact ih merged

theorem trim_settled {segments : List (Segment Command)} (merged : Segment.Merged segments)
    (trimmed : Segment.trim segments = segments) :
    Segment.trim (settledSegments segments) = settledSegments segments := by
  have blank : Segment.isBlankAtom ∘ Sum.map id Command.settled = Segment.isBlankAtom := by
    funext a
    cases a <;> rfl
  have kept := congrArg Segment.atoms trimmed
  rw [Segment.atoms_trim] at kept
  have settled := merged_settled merged
  refine Segment.eq_of_atoms (Segment.merged_trim settled) settled ?_
  rw [Segment.atoms_trim, atoms_settled, List.dropWhile_map, blank, List.rdropWhile,
    ← List.map_reverse,
    List.dropWhile_map, blank, ← List.map_reverse]
  exact congrArg (List.map _) kept

/-! Numbers -/

mutual

/-- The numbers of the replies of a command, in the order of its script. -/
def Command.numbers : Command → List Nat
  | .choice clauses otherwise => numbersOfClauses clauses ++ numbersOfOption otherwise
  | .random clauses => numbersOfWeighted clauses
  | .action _ | .set _ | .input _ => []

def numbersOfClauses : List IfClause → List Nat
  | [] => []
  | ⟨_, body⟩ :: rest => body.numbers ++ numbersOfClauses rest

def numbersOfWeighted : List RandomClause → List Nat
  | [] => []
  | ⟨_, body⟩ :: rest => body.numbers ++ numbersOfWeighted rest

def numbersOfOption : Option Body → List Nat
  | none => []
  | some body => body.numbers

def numbersOfSegments : List (Segment Command) → List Nat
  | [] => []
  | .text _ :: rest => numbersOfSegments rest
  | .command c :: rest => c.numbers ++ numbersOfSegments rest

/-- The numbers of the replies of a body, those of its commands in front of its own. -/
def Body.numbers : Body → List Nat
  | ⟨segments, replies⟩ => numbersOfSegments segments ++ replies.map (·.id)

end

/-- Whether numbers go up by one from the first. -/
def Counts (first : Nat) (numbers : List Nat) : Prop := numbers = List.range' first numbers.length

theorem counts_append_iff {first : Nat} {xs ys : List Nat} :
    Counts first (xs ++ ys) ↔ Counts first xs ∧ Counts (first + xs.length) ys := by
  unfold Counts
  rw [List.length_append, ← List.range'_append_1]
  constructor
  · intro same
    exact List.append_inj same List.length_range'.symm
  · rintro ⟨one, two⟩
    rw [← one, ← two]

end Parley
