import Parley.Proofs.Body.Overlong
import Parley.Proofs.Dialogue.Nodes
import Parley.Proofs.Dialogue.Titles

/-!
Blocks that are read on their own. What came before a block counts for it only through the titles
that have been taken, so blocks that write different titles give in one script what each gives in a
script of its own, with its errors as much further down as it stands.
-/
namespace Parley

open Numeral

namespace DialogueError

/-- Whether an error lies in a dialogue as a whole. -/
def ofWhole : DialogueError → Bool
  | script e | node _ e => e.cause.ofWhole

/-- Whether an error lies in a node and leaves the others to be read. -/
def isInner : DialogueError → Bool
  | script _ => false
  | node _ e => !e.cause.ofWhole && !e.isFatal

theorem isFatal_of_ofWhole {e : DialogueError} (whole : e.ofWhole) : e.isFatal = false := by
  have other (c : Cause) (whole : c.ofWhole) : c ≠ .invalidExpression .longNumber := by
    rintro rfl
    cases whole
  cases e <;> exact decide_eq_false (other _ whole)

theorem isInner_of_ofWhole {e : DialogueError} (whole : e.ofWhole) : e.isInner = false := by
  cases e with
  | script e => rfl
  | node title e =>
    have inside : e.cause.ofWhole := whole
    rw [isInner, inside]
    rfl

end DialogueError

namespace Dialogue

/-! Blocks one after the other -/

/-- The lines of a node, with the line that ends it. -/
structure NodeBlock where
  inner : List (List Char)
  last : List Char
  inside : ∀ line ∈ inner, isNodeEnd line = false
  ends : isNodeEnd last

namespace NodeBlock

def lines (b : NodeBlock) : List (List Char) := b.inner ++ [b.last]

def titles (b : NodeBlock) : List String := titlesIn b.inner

/-- Whether no title in one block is in another, in whatever case. -/
def Apart (b c : NodeBlock) : Prop := ∀ s ∈ b.titles, ∀ t ∈ c.titles, lower s ≠ lower t

instance : DecidableRel Apart := fun b c =>
  inferInstanceAs (Decidable (∀ s ∈ b.titles, ∀ t ∈ c.titles, lower s ≠ lower t))

/-- The lines of blocks one after the other. -/
def script (bs : List NodeBlock) : List (List Char) := bs.flatMap lines

theorem blocks_script (number : Nat) (b : NodeBlock) (bs : List NodeBlock) :
    blocks number (script (b :: bs)) =
      ⟨number, b.inner, true⟩ :: blocks (number + b.lines.length) (script bs) := by
  rw [script, List.flatMap_cons, lines, List.append_assoc, List.singleton_append,
    blocks_of_frame number b.inside b.ends, List.length_append, List.length_singleton,
    Nat.add_assoc]
  rfl

end NodeBlock

/-- What the lines of a script give before the dialogue is checked as a whole. -/
def Reading.ofLines (name : String) (lines : List (List Char)) : Reading :=
  (blocks 1 lines).foldl Reading.step ⟨⟨name, []⟩, [], []⟩

/-- The nodes that are read from a script, whatever is wrong with the dialogue that they form. -/
def nodesIn (name : String) (lines : List (List Char)) : List Node :=
  (Reading.ofLines name lines).dialogue.nodes

/-- What each block gives, as much further down as there are lines before it. -/
def inTurn (given : NodeBlock → List DialogueError) : Nat → List NodeBlock → List DialogueError
  | _, [] => []
  | k, b :: rest => (given b).map (DialogueError.down k) ++ inTurn given (k + b.lines.length) rest

namespace Reading

variable {r : Reading}

theorem step_empty (r : Reading) (number : Nat) : r.step ⟨number, [], false⟩ = r := rfl

/-- A block alone is all that its lines give. -/
theorem ofLines_block (name : String) (b : NodeBlock) :
    ofLines name b.lines = step ⟨⟨name, []⟩, [], []⟩ ⟨1, b.inner, true⟩ := by
  have whole := NodeBlock.blocks_script 1 b []
  rw [NodeBlock.script, List.flatMap_singleton] at whole
  rw [ofLines, whole, List.foldl_cons]
  exact step_empty _ (1 + b.lines.length)

/-- A block whose titles are free gives what it gives alone, further down. -/
theorem step_block {b : NodeBlock} (free : ∀ t ∈ b.titles, r.dialogue.hasNode t = false) (k : Nat) :
    (r.step ⟨1 + k, b.inner, true⟩).dialogue.nodes =
        r.dialogue.nodes ++ nodesIn r.dialogue.name b.lines ∧
      (r.step ⟨1 + k, b.inner, true⟩).errors =
        r.errors ++ (ofLines r.dialogue.name b.lines).errors.map (DialogueError.down k) := by
  have alone : nodeOf r.dialogue.name r.dialogue.hasNode ⟨1 + k, b.inner, true⟩ =
      nodeOf r.dialogue.name (Dialogue.hasNode ⟨r.dialogue.name, []⟩) ⟨1 + k, b.inner, true⟩ :=
    nodeOf_congr free
  rw [nodesIn, ofLines_block, step, step, alone]
  obtain ⟨none, _⟩ | ⟨title, read, further, here, there, moves⟩ := nodeOf_down (k := k)
    r.dialogue.name (Dialogue.hasNode ⟨r.dialogue.name, []⟩) ⟨1, b.inner, true⟩
  · exact (nodeOf_ne_none rfl none).elim
  · rw [NodeLines.down] at there
    rw [here, there, moves.same]
    cases read with
    | error e => exact ⟨(List.append_nil _).symm, rfl⟩
    | ok found => exact ⟨rfl, (List.append_nil _).symm⟩

/-- A block gives one node or one error. -/
theorem single_block (name : String) (b : NodeBlock) :
    (ofLines name b.lines).errors.length + (nodesIn name b.lines).length = 1 := by
  rw [nodesIn, ofLines_block, step]
  cases given : nodeOf name (Dialogue.hasNode ⟨name, []⟩) ⟨1, b.inner, true⟩ with
  | none => exact (nodeOf_ne_none rfl given).elim
  | some outcome => cases outcome <;> rfl

theorem title_block {name : String} {b : NodeBlock} :
    ∀ n ∈ nodesIn name b.lines, n.title ∈ b.titles := by
  intro n member
  rw [nodesIn, ofLines_block, step] at member
  cases given : nodeOf name (Dialogue.hasNode ⟨name, []⟩) ⟨1, b.inner, true⟩ with
  | none => exact (nodeOf_ne_none rfl given).elim
  | some outcome =>
    rw [given] at member
    cases outcome with
    | error e => cases member
    | ok found =>
      cases List.mem_singleton.mp member
      exact title_of_nodeOf given

/-- Blocks that write different titles, all of them free, give what they give alone. -/
theorem fold_script {bs : List NodeBlock} (apart : bs.Pairwise NodeBlock.Apart)
    (free : ∀ b ∈ bs, ∀ t ∈ b.titles, r.dialogue.hasNode t = false) (k : Nat) :
    ((blocks (1 + k) (NodeBlock.script bs)).foldl step r).dialogue.nodes =
        r.dialogue.nodes ++ bs.flatMap (nodesIn r.dialogue.name ·.lines) ∧
      ((blocks (1 + k) (NodeBlock.script bs)).foldl step r).errors =
        r.errors ++ inTurn (fun b => (ofLines r.dialogue.name b.lines).errors) k bs := by
  induction bs generalizing r k with
  | nil => exact ⟨(List.append_nil _).symm, (List.append_nil _).symm⟩
  | cons b rest ih =>
    obtain ⟨here, apart⟩ := List.pairwise_cons.mp apart
    obtain ⟨nodes, errors⟩ := step_block (free b List.mem_cons_self) k
    have name : (r.step ⟨1 + k, b.inner, true⟩).dialogue.name = r.dialogue.name :=
      name_fold [_] r
    have later : ∀ c ∈ rest, ∀ t ∈ c.titles,
        (r.step ⟨1 + k, b.inner, true⟩).dialogue.hasNode t = false := by
      intro c member t written
      rw [hasNode_eq_false_iff, nodes]
      intro n inside
      rcases List.mem_append.mp inside with earlier | own
      · exact hasNode_eq_false_iff.mp (free c (List.mem_cons_of_mem b member) t written) n earlier
      · exact here c member n.title (title_block n own) t written
    obtain ⟨moreNodes, moreErrors⟩ := ih apart later (k + b.lines.length)
    rw [NodeBlock.blocks_script, List.foldl_cons, Nat.add_assoc, moreNodes, moreErrors, nodes,
      errors, name, List.append_assoc, List.append_assoc]
    exact ⟨rfl, rfl⟩

theorem ofLines_script (name : String) {bs : List NodeBlock}
    (apart : bs.Pairwise NodeBlock.Apart) :
    nodesIn name (NodeBlock.script bs) = bs.flatMap (nodesIn name ·.lines) ∧
      (ofLines name (NodeBlock.script bs)).errors =
        inTurn (fun b => (ofLines name b.lines).errors) 0 bs :=
  fold_script apart (r := ⟨⟨name, []⟩, [], []⟩) (fun _ _ _ _ => rfl) 0

/-- Whether the errors found so far are those of nodes. -/
def Inner (r : Reading) : Prop :=
  ∀ e ∈ r.errors, ∃ title c, e = .node title c ∧ c.cause.ofWhole = false

theorem Inner.step (inner : r.Inner) (b : NodeLines) : (r.step b).Inner := by
  unfold Reading.step
  split
  · exact inner
  · rename_i found given
    intro e member
    rcases List.mem_append.mp member with earlier | last
    · exact inner e earlier
    · rw [List.mem_singleton.mp last]
      exact inner_of_nodeOf given
  · exact inner

theorem inner_ofLines (name : String) (lines : List (List Char)) : (ofLines name lines).Inner := by
  have start : Inner ⟨⟨name, []⟩, [], []⟩ := by simp [Inner]
  rw [ofLines]
  generalize (⟨⟨name, []⟩, [], []⟩ : Reading) = r at start
  induction blocks 1 lines generalizing r with
  | nil => exact start
  | cons b rest ih => exact ih (r.step b) (start.step b)

end Reading

/-! What a script is reported to have wrong -/

/-- Whether the reading of a script has been given up at one error. -/
def isGivenUp : Except (List DialogueError) Dialogue → Bool
  | .error [e] => e.isFatal
  | _ => false

/-- The errors that are reported of blocks, and not of the dialogue that they form. -/
def nodeErrors : Except (List DialogueError) Dialogue → List DialogueError
  | .ok _ => []
  | .error es => es.filter DialogueError.isInner

variable {name : String} {lines : List (List Char)}

theorem ofWhole_of_nameErrors : ∀ e ∈ nameErrors name, e.ofWhole := by
  unfold nameErrors
  split <;> simp [DialogueError.ofWhole, Cause.ofWhole]

theorem ofWhole_of_wholeErrors {d : Dialogue} {pointers : List NodePointer} {count : Nat} :
    ∀ e ∈ wholeErrors d pointers count, e.ofWhole := by
  intro e member
  rcases List.mem_append.mp member with start | dangling
  · split at start
    · rw [List.mem_singleton.mp start]
      rfl
    · cases start
  · obtain ⟨p, _, rfl⟩ := List.mem_map.mp dangling
    rfl

theorem ofLines_of_fatal {e : DialogueError}
    (fatal : (Reading.ofLines name lines).errors.find? (·.isFatal) = some e) :
    ofLines name lines = .error [e] := by
  unfold ofLines
  dsimp only
  rw [← Reading.ofLines, fatal]

theorem filter_isInner_of_ofWhole {es : List DialogueError} (whole : ∀ e ∈ es, e.ofWhole) :
    es.filter DialogueError.isInner = [] :=
  List.filter_eq_nil_iff.mpr fun e member =>
    Bool.eq_false_iff.mp (DialogueError.isInner_of_ofWhole (whole e member))

/-- A script that is read to its end gives a dialogue, or errors in it as a whole, or the errors in
its blocks. -/
theorem ofLines_of_sound (sound : ∀ e ∈ (Reading.ofLines name lines).errors, e.isFatal = false) :
    ((Reading.ofLines name lines).errors = [] ∧
      (ofLines name lines = .ok (Reading.ofLines name lines).dialogue ∨
        ∃ es, ofLines name lines = .error es ∧ ∀ e ∈ es, e.ofWhole)) ∨
    ofLines name lines = .error (nameErrors name ++ (Reading.ofLines name lines).errors) ∧
      (Reading.ofLines name lines).errors ≠ [] := by
  have none : (Reading.ofLines name lines).errors.find? (·.isFatal) = none :=
    List.find?_eq_none.mpr fun e member => Bool.eq_false_iff.mp (sound e member)
  unfold ofLines
  dsimp only
  rw [← Reading.ofLines, none]
  dsimp only
  cases found : (Reading.ofLines name lines).errors with
  | nil =>
    refine .inl ⟨rfl, ?_⟩
    simp only [List.isEmpty_nil, if_true]
    split
    · exact .inl rfl
    · refine .inr ⟨_, rfl, fun e member => ?_⟩
      rcases List.mem_append.mp member with named | whole
      · exact ofWhole_of_nameErrors e named
      · exact ofWhole_of_wholeErrors e whole
  | cons e rest =>
    refine .inr ⟨?_, List.cons_ne_nil e rest⟩
    simp

theorem isGivenUp_of_sound {es : List DialogueError} (sound : ∀ e ∈ es, e.isFatal = false) :
    isGivenUp (.error es) = false := by
  match es with
  | [] => rfl
  | [e] => exact sound e List.mem_cons_self
  | _ :: _ :: _ => rfl

/-- Without an error in the blocks that ends the reading there is none. -/
theorem not_isFatal_of_ofLines
    (sound : ∀ e ∈ (Reading.ofLines name lines).errors, e.isFatal = false) {es : List DialogueError}
    (read : ofLines name lines = .error es) : ∀ e ∈ es, e.isFatal = false := by
  obtain ⟨_, good | ⟨others, errors, whole⟩⟩ | ⟨errors, _⟩ := ofLines_of_sound sound
  · cases good.symm.trans read
  · cases errors.symm.trans read
    exact fun e member => DialogueError.isFatal_of_ofWhole (whole e member)
  · cases errors.symm.trans read
    intro e member
    rcases List.mem_append.mp member with named | inner
    · exact DialogueError.isFatal_of_ofWhole (ofWhole_of_nameErrors e named)
    · exact sound e inner

theorem isGivenUp_ofLines_of_sound
    (sound : ∀ e ∈ (Reading.ofLines name lines).errors, e.isFatal = false) :
    isGivenUp (ofLines name lines) = false := by
  cases read : ofLines name lines with
  | ok d => rfl
  | error es => exact isGivenUp_of_sound (not_isFatal_of_ofLines sound read)

theorem isGivenUp_ofLines_iff :
    isGivenUp (ofLines name lines) ↔ ∃ e ∈ (Reading.ofLines name lines).errors, e.isFatal := by
  cases found : (Reading.ofLines name lines).errors.find? (·.isFatal) with
  | some e =>
    rw [ofLines_of_fatal found]
    have fatal : e.isFatal := List.find?_some found
    exact ⟨fun _ => ⟨e, List.mem_of_find?_eq_some found, fatal⟩, fun _ => fatal⟩
  | none =>
    have sound : ∀ e ∈ (Reading.ofLines name lines).errors, e.isFatal = false :=
      fun e member => Bool.eq_false_iff.mpr (List.find?_eq_none.mp found e member)
    rw [isGivenUp_ofLines_of_sound sound]
    refine ⟨fun givenUp => (Bool.false_ne_true givenUp).elim, fun ⟨e, member, fatal⟩ => ?_⟩
    cases fatal.symm.trans (sound e member)

/-- The errors that are reported of the blocks of a script are all that were found in them, unless
the reading was given up. -/
theorem nodeErrors_ofLines
    (sound : ∀ e ∈ (Reading.ofLines name lines).errors, e.isFatal = false) :
    nodeErrors (ofLines name lines) = (Reading.ofLines name lines).errors := by
  obtain ⟨none, read | ⟨es, read, whole⟩⟩ | ⟨read, _⟩ := ofLines_of_sound sound
  · rw [read, none]
    rfl
  · rw [read, none]
    exact filter_isInner_of_ofWhole whole
  · rw [read, nodeErrors, List.filter_append, filter_isInner_of_ofWhole ofWhole_of_nameErrors,
      List.nil_append, List.filter_eq_self]
    intro e member
    obtain ⟨title, c, rfl, inner⟩ := Reading.inner_ofLines name lines e member
    have sound : c.isFatal = false := sound _ member
    rw [DialogueError.isInner, inner, sound]
    rfl

/-! Blocks in one script and each in its own -/

theorem exists_fatal_inTurn_iff {given : NodeBlock → List DialogueError} {bs : List NodeBlock}
    (k : Nat) : (∃ e ∈ inTurn given k bs, e.isFatal) ↔ ∃ b ∈ bs, ∃ e ∈ given b, e.isFatal := by
  induction bs generalizing k with
  | nil => simp [inTurn]
  | cons b rest ih =>
    have here : (∃ e ∈ (given b).map (DialogueError.down k), e.isFatal) ↔
        ∃ e ∈ given b, e.isFatal := by
      simp [DialogueError.isFatal_down]
    rw [inTurn]
    simp only [List.mem_append, or_and_right, exists_or, here, ih, List.exists_mem_cons_iff]

theorem inTurn_congr {given given' : NodeBlock → List DialogueError} {bs : List NodeBlock}
    (same : ∀ b ∈ bs, given b = given' b) (k : Nat) : inTurn given k bs = inTurn given' k bs := by
  induction bs generalizing k with
  | nil => rfl
  | cons b rest ih =>
    rw [inTurn, inTurn, same b List.mem_cons_self,
      ih fun c member => same c (List.mem_cons_of_mem b member)]

theorem inTurn_eq_nil {given : NodeBlock → List DialogueError} {bs : List NodeBlock}
    (none : ∀ b ∈ bs, given b = []) (k : Nat) : inTurn given k bs = [] := by
  induction bs generalizing k with
  | nil => rfl
  | cons b rest ih =>
    rw [inTurn, none b List.mem_cons_self, ih fun c member => none c (List.mem_cons_of_mem b member)]
    rfl

/-- What it is for the blocks of a script to be read each on its own. -/
structure ReadsSeparately (name : String) (bs : List NodeBlock) : Prop where
  /-- The errors of the blocks are those of each alone, as far down as it stands. -/
  errors : nodeErrors (ofLines name (NodeBlock.script bs)) =
    inTurn (fun b => nodeErrors (ofLines name b.lines)) 0 bs
  /-- A block gives one error or one node. -/
  single : ∀ b ∈ bs,
    (nodeErrors (ofLines name b.lines)).length + (nodesIn name b.lines).length = 1
  nodes : nodesIn name (NodeBlock.script bs) = bs.flatMap fun b => nodesIn name b.lines
  dialogue : ∀ d, ofLines name (NodeBlock.script bs) = .ok d →
    d.nodes = bs.flatMap fun b => nodesIn name b.lines
  /-- Without errors in the blocks there are none but those of the whole. -/
  others : (∀ b ∈ bs, nodeErrors (ofLines name b.lines) = []) →
    ∀ es, ofLines name (NodeBlock.script bs) = .error es → ∀ e ∈ es, e.ofWhole

/-- Blocks that write different titles are read each on its own, unless one of them has the reading
given up. -/
theorem reads_separately (name : String) {bs : List NodeBlock}
    (apart : bs.Pairwise NodeBlock.Apart) :
    (isGivenUp (ofLines name (NodeBlock.script bs)) ↔
      ∃ b ∈ bs, isGivenUp (ofLines name b.lines)) ∧
    ((∀ b ∈ bs, isGivenUp (ofLines name b.lines) = false) → ReadsSeparately name bs) := by
  obtain ⟨nodes, errors⟩ := Reading.ofLines_script name apart
  have givenUp : isGivenUp (ofLines name (NodeBlock.script bs)) ↔
      ∃ b ∈ bs, isGivenUp (ofLines name b.lines) := by
    simp only [isGivenUp_ofLines_iff, errors, exists_fatal_inTurn_iff]
  refine ⟨givenUp, fun goOn => ?_⟩
  have alone : ∀ b ∈ bs, nodeErrors (ofLines name b.lines) =
      (Reading.ofLines name b.lines).errors := by
    intro b member
    refine nodeErrors_ofLines fun e inside => Bool.eq_false_iff.mpr fun fatal => ?_
    cases (goOn b member).symm.trans (isGivenUp_ofLines_iff.mpr ⟨e, inside, fatal⟩)
  have sound : ∀ e ∈ (Reading.ofLines name (NodeBlock.script bs)).errors, e.isFatal = false := by
    intro e inside
    refine Bool.eq_false_iff.mpr fun fatal => ?_
    obtain ⟨b, member, stops⟩ := givenUp.mp (isGivenUp_ofLines_iff.mpr ⟨e, inside, fatal⟩)
    cases (goOn b member).symm.trans stops
  refine ⟨?_, fun b member => ?_, nodes, fun d read => ?_, fun none es read => ?_⟩
  · rw [nodeErrors_ofLines sound, errors, inTurn_congr alone]
  · rw [alone b member]
    exact Reading.single_block name b
  · obtain ⟨r, folded, _, _, _, _, rfl⟩ := ofLines_eq_ok_iff.mp read
    rw [← nodes, ← folded]
    rfl
  · obtain ⟨_, whole | ⟨es', read', whole⟩⟩ | ⟨_, some⟩ := ofLines_of_sound sound
    · cases whole.symm.trans read
    · cases read'.symm.trans read
      exact whole
    · rw [errors, inTurn_eq_nil fun b member => (alone b member).symm.trans (none b member)] at some
      exact (some rfl).elim

/-- A greeting, as the node that a dialogue starts with. -/
def greeting : NodeBlock where
  inner := ["title: Start".toList, "speaker: Bob".toList, "---".toList, "Hello.".toList]
  last := "===".toList
  inside := by decide +kernel
  ends := by decide

/-- A node without a speaker. -/
def unspoken : NodeBlock where
  inner := ["title: A".toList, "---".toList]
  last := "===".toList
  inside := by decide
  ends := by decide

/-- An error in the second block stands five lines further down than in that block alone. -/
theorem reads_unspoken_behind_greeting :
    [greeting, unspoken].Pairwise NodeBlock.Apart ∧
      nodeErrors (ofLines "d" (NodeBlock.script [greeting, unspoken])) =
        [.node (some "A") ((Cause.missingHeader "speaker").placedAt ⟨7, 1⟩)] := by
  have apart : [greeting, unspoken].Pairwise NodeBlock.Apart := by decide +kernel
  have separate := (reads_separately "d" apart).2 (by decide +kernel)
  exact ⟨apart, separate.errors.trans (by decide +kernel)⟩

/-! A reading that is given up -/

/-- A block whose body is refused has the error in it. -/
theorem nodeOf_of_refused {number : Nat} {above below : List (List Char)} {bar : List Char}
    {taken : String → Bool} {h : HeaderLines} {header : Header} {c : ScriptError}
    (inner : ∀ line ∈ above, isHeaderEnd line = false) (isBar : isHeaderEnd bar)
    (added : HeaderLines.initial.addAll taken number above = .ok h)
    (whole : ∀ last, h.header last = .ok header)
    (refused : Body.ofLines name (number + above.length + 1) below = .error c) :
    nodeOf name taken ⟨number, above ++ bar :: below, true⟩ =
      some (.error (.node h.title c)) := by
  have lines : (above ++ bar :: below).takeWhile (!isHeaderEnd ·) = above :=
    takeWhile_append_of_stop (fun line member => by rw [inner line member]; rfl) (by simp [isBar])
  have body : bodyOf name header (number + above.length + 1) below = .error c := by
    rw [Body.ofLines] at refused
    rw [bodyOf]
    cases cut : (Tokenizer.readLines .initial (number + above.length + 1)
      (below.map (· ++ ['\n']))).1 with
    | error e =>
      rw [cut] at refused
      cases refused
      rfl
    | ok tokens =>
      rw [cut, ok_bind] at refused
      rw [ok_bind, refused]
      rfl
  unfold nodeOf
  dsimp only
  rw [lines, added, List.drop_left]
  dsimp only
  rw [whole, ok_bind, body]
  rfl

/-- A block in which no header ends. -/
def headless : NodeBlock where
  inner := []
  last := "===".toList
  inside := by decide
  ends := by decide

theorem not_isNodeEnd_numberLine (digits : List Char) : isNodeEnd (numberLine digits) = false := by
  refine Bool.eq_false_iff.mpr fun ends => ?_
  have content : contentOf (numberLine digits) = ['=', '=', '='] := eq_of_beq ends
  have marker : '<' ∈ contentOf (numberLine digits) :=
    mem_stripChars (List.mem_cons_self : '<' ∈ uncommented (numberLine digits)) (by decide)
  rw [content] at marker
  exact absurd marker (by decide)

/-- A block with a number in its body. -/
def numberBlock (digits : List Char) : NodeBlock where
  inner := ["title: A".toList, "speaker: B".toList, "---".toList, numberLine digits]
  last := "===".toList
  inside := by
    intro line member
    simp only [List.mem_cons, List.not_mem_nil, or_false] at member
    rcases member with rfl | rfl | rfl | rfl
    · decide +kernel
    · decide +kernel
    · decide
    · exact not_isNodeEnd_numberLine digits
  ends := by decide

theorem exists_fatal_numberBlock {digits : List Char} (plain : ∀ c ∈ digits, isPlainDigit c)
    (long : maxDigits < digits.length) :
    ∃ e ∈ (Reading.ofLines name (numberBlock digits).lines).errors, e.isFatal := by
  let taken := Dialogue.hasNode ⟨name, []⟩
  obtain ⟨place, refused⟩ := Body.ofLines_of_long plain long name 4
  have read : nodeOf name taken ⟨1, (numberBlock digits).inner, true⟩ =
      some (.error (.node (some "A") ((Cause.invalidExpression .longNumber).placedAt place))) := by
    have added : HeaderLines.initial.addAll taken 1 ["title: A".toList, "speaker: B".toList] =
        .ok ⟨some "A", some ("B", ⟨2, 10⟩), [], ["title", "speaker"]⟩ := rfl
    exact nodeOf_of_refused (by decide) (by decide) added (fun _ => rfl) refused
  rw [Reading.ofLines_block, Reading.step, read]
  exact ⟨_, List.mem_singleton_self _, rfl⟩

theorem nodeErrors_of_isGivenUp {outcome : Except (List DialogueError) Dialogue}
    (givenUp : isGivenUp outcome) : nodeErrors outcome = [] := by
  match outcome with
  | .ok _ => rfl
  | .error [] => rfl
  | .error (_ :: _ :: _) => cases givenUp
  | .error [e] =>
    have fatal : e.isFatal := givenUp
    have outer : e.isInner = false := by
      cases e with
      | script e => rfl
      | node title e =>
        have stops : e.isFatal := fatal
        rw [DialogueError.isInner, stops, Bool.not_true, Bool.and_false]
    rw [nodeErrors, List.filter_cons, outer]
    rfl

/-- An error in one block is not reported where another has a number with too many digits. -/
theorem error_is_lost_to_long_number :
    let bs := [headless, numberBlock (List.replicate 4301 '9')]
    bs.Pairwise NodeBlock.Apart ∧
      nodeErrors (ofLines "d" headless.lines) =
        [.node none (Cause.headerOpen.placedAt ⟨1, 1⟩)] ∧
      nodeErrors (ofLines "d" (NodeBlock.script bs)) = [] := by
  intro bs
  have apart : bs.Pairwise NodeBlock.Apart :=
    List.pairwise_pair.mpr fun _ written => by cases written
  have plain : ∀ c ∈ List.replicate 4301 '9', isPlainDigit c := by
    intro c member
    rw [List.eq_of_mem_replicate member]
    rfl
  have long : maxDigits < (List.replicate 4301 '9').length := by
    rw [List.length_replicate]
    decide
  refine ⟨apart, by decide +kernel, nodeErrors_of_isGivenUp (isGivenUp_ofLines_iff.mpr ?_)⟩
  rw [(Reading.ofLines_script "d" apart).2, exists_fatal_inTurn_iff]
  exact ⟨_, List.mem_cons_of_mem _ List.mem_cons_self, exists_fatal_numberBlock plain long⟩

end Dialogue

end Parley
