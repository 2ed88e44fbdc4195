import Parley.Proofs.Body.Tokens
import Parley.Proofs.Dialogue.Blocks
import Parley.Proofs.Dialogue.Headers
import Parley.Proofs.Dialogue.Lines

/-!
Nodes that have been read, and the lines of what is written of them.
-/
namespace Parley

/-- A body that is read from lines without breaks has been accepted. -/
theorem Body.meets_of_ofLines {dialogue : String} {number : Nat} {lines : List (List Char)}
    {b : Body} {uses : List PointerUse} (flat : ∀ line ∈ lines, ∀ c ∈ line, isLineBreak c = false)
    (read : Body.ofLines dialogue number lines = .ok (b, uses)) :
    b.Meets (Body.Law.accepted dialogue) := by
  obtain ⟨tokens, cut, formed⟩ := bind_eq_ok_iff.mp read
  refine Body.meets_of_ofTokens (Body.accepted_kept dialogue uses)
    (Tokenizer.fit_of_readLines (fun line member => ?_) cut) formed
  obtain ⟨inner, inside, rfl⟩ := List.mem_map.mp member
  exact quotesFirst_append (flat inner inside) (by decide)

/-! What is written of a node -/

/-- What holds of a node that has been read. -/
structure Node.Sound (dialogue : String) (n : Node) : Prop where
  header : n.header.Sound
  body : n.body.Meets (Body.Law.accepted dialogue)
  ended : Pointer.isEndId n.title → n.body.isEmpty

theorem Body.eq_empty_of_isEmpty {b : Body} (none : b.isEmpty) : b = .empty := by
  obtain ⟨segments, replies⟩ := b
  obtain ⟨first, second⟩ := Bool.and_eq_true_iff.mp none
  cases List.isEmpty_iff.mp first
  cases List.isEmpty_iff.mp second
  rfl

theorem Body.toScript_of_isEmpty {b : Body} (none : b.isEmpty) : b.toScript = "" := by
  rw [eq_empty_of_isEmpty none]
  rfl

/-- The lines of a body in the script of its node, where an empty body has an empty line. -/
def Body.lines (b : Body) : List (List Char) :=
  if b.isEmpty then [[]] else linesOf b.toScript.toList

namespace Node

def dashes : List Char := ['-', '-', '-']

def equals : List Char := ['=', '=', '=']

def lines (n : Node) : List (List Char) :=
  n.header.lines ++ dashes :: (n.body.lines ++ [equals])

theorem toList_toScript (n : Node) : n.toScript.toList =
    ['\n'].intercalate n.header.lines ++
      '\n' :: (dashes ++ '\n' :: (n.body.toScript.toList ++ '\n' :: equals)) := by
  have header : n.header.toScript.toList = ['\n'].intercalate n.header.lines := by
    rw [Header.toScript, String.toList_intercalate]
    cases said : n.header.speaker <;> simp [Header.lines, said, Function.comp_def]
  simp [Node.toScript, header, dashes, equals]

variable {dialogue : String} {n : Node}

theorem endsInside_equals : EndsInside equals := ⟨'=', rfl, rfl⟩

theorem endsInside_toScript (n : Node) : EndsInside n.toScript.toList := by
  have whole : n.toScript.toList = (['\n'].intercalate n.header.lines ++
      '\n' :: (dashes ++ '\n' :: (n.body.toScript.toList ++ ['\n']))) ++ equals := by
    simp [toList_toScript]
  rw [whole]
  exact endsInside_equals.append _

/-- The lines of a node script are those of its header and of its body and the two that divide
them. -/
theorem linesOf_toScript (sound : n.Sound dialogue) : linesOf n.toScript.toList = n.lines := by
  have marks := Dialogue.HeaderLines.marks_of_lines sound.header
  have each : ∀ line ∈ n.header.lines, EndsInside line := fun line member =>
    endsInside_of_flat (marks line member).1 (marks line member).2.1
  have header : linesOf (['\n'].intercalate n.header.lines) = n.header.lines := by
    rw [linesOf_intercalate each]
    exact (List.flatMap_congr fun line member =>
      linesOf_flat (marks line member).1 (marks line member).2.1).trans (List.flatMap_singleton' _)
  have inside : EndsInside (['\n'].intercalate n.header.lines) :=
    endsInside_intercalate (by simp [Header.lines]) each
  have body : linesOf (n.body.toScript.toList ++ '\n' :: equals) = n.body.lines ++ [equals] := by
    unfold Body.lines
    split
    · rename_i none
      rw [Body.toScript_of_isEmpty none]
      rfl
    · rename_i some
      rw [linesOf_joined (Body.endsInside_toScript sound.body (by simpa using some))]
      rfl
  rw [toList_toScript, linesOf_joined inside, header, linesOf_joined ⟨'-', rfl, rfl⟩, body]
  rfl

/-- The lines of node scripts that are joined are those of each, one after the other. -/
theorem linesOf_scripts {nodes : List Node} (sound : ∀ n ∈ nodes, n.Sound dialogue) :
    linesOf (String.intercalate "\n" (nodes.map toScript)).toList = nodes.flatMap lines := by
  have parts : ∀ part ∈ (nodes.map toScript).map String.toList, EndsInside part := by
    intro part member
    obtain ⟨script, inside, rfl⟩ := List.mem_map.mp member
    obtain ⟨n, _, rfl⟩ := List.mem_map.mp inside
    exact n.endsInside_toScript
  have feed : ("\n" : String).toList = ['\n'] := rfl
  rw [String.toList_intercalate, feed, linesOf_intercalate parts, List.map_map, List.flatMap_map]
  exact List.flatMap_congr fun n member => linesOf_toScript (sound n member)

end Node

namespace Dialogue

/-! Nodes that have been read -/

/-- Whether no two nodes have the same title. -/
def Distinct (nodes : List Node) : Prop := (nodes.map fun n => lower n.title).Nodup

theorem hasNode_eq_false_iff {d : Dialogue} {title : String} :
    d.hasNode title = false ↔ ∀ n ∈ d.nodes, lower n.title ≠ lower title := by
  simp [hasNode, node?]

theorem distinct_concat_iff {d : Dialogue} {n : Node} :
    Distinct (d.nodes ++ [n]) ↔ Distinct d.nodes ∧ d.hasNode n.title = false := by
  rw [hasNode_eq_false_iff, Distinct, Distinct, List.map_append, List.nodup_append]
  simp

namespace Reading

/-- What holds of the nodes that have been read. -/
structure Sound (r : Reading) : Prop where
  nodes : ∀ n ∈ r.dialogue.nodes, n.Sound r.dialogue.name
  distinct : Distinct r.dialogue.nodes

variable {r : Reading}

/-- A block without breaks in its lines gives a sound node, if it gives one. -/
theorem Sound.step {b : NodeLines} (sound : r.Sound)
    (flat : ∀ line ∈ b.lines, ∀ c ∈ line, isLineBreak c = false) : (r.step b).Sound := by
  unfold Reading.step
  split
  · exact sound
  · exact ⟨sound.nodes, sound.distinct⟩
  rename_i node uses read
  obtain ⟨above, bar, below, h, number, _, lines, added, given, formed, ended⟩ := of_nodeOf read
  obtain ⟨header, free⟩ := (HeaderLines.sound_initial.addAll
    (fun line member => flat line (lines ▸ List.mem_append_left _ member)) added).header given
  have body : node.body.Meets (Body.Law.accepted r.dialogue.name) :=
    Body.meets_of_ofLines (fun line member => flat line
      (lines ▸ List.mem_append_right _ (List.mem_cons_of_mem bar member))) formed
  refine ⟨fun other member => ?_, ?_⟩
  · rcases List.mem_append.mp member with earlier | last
    · exact sound.nodes other earlier
    · rw [List.mem_singleton.mp last]
      exact ⟨header, body, ended⟩
  · exact distinct_concat_iff.mpr ⟨sound.distinct, free⟩

theorem Sound.fold (sound : r.Sound) {blocks : List NodeLines}
    (flat : ∀ b ∈ blocks, ∀ line ∈ b.lines, ∀ c ∈ line, isLineBreak c = false) :
    (blocks.foldl Reading.step r).Sound := by
  induction blocks generalizing r with
  | nil => exact sound
  | cons b rest ih =>
    exact ih (sound.step (flat b List.mem_cons_self))
      fun other member => flat other (List.mem_cons_of_mem b member)

end Reading

/-- What holds of a dialogue that has been read. -/
theorem sound_of_ofLines {name : String} {cs : List Char} {d : Dialogue}
    (read : ofLines name (linesOf cs) = .ok d) :
    d.name = name ∧ (∀ n ∈ d.nodes, n.Sound name) ∧ Distinct d.nodes := by
  obtain ⟨r, folded, _, _, _, _, rfl⟩ := ofLines_eq_ok_iff.mp read
  have named : r.dialogue.name = name := folded ▸ name_fold _ _
  have start : Reading.Sound ⟨⟨name, []⟩, [], []⟩ := ⟨by simp, List.nodup_nil⟩
  have sound : r.Sound := folded ▸ start.fold fun b member line inside =>
    flat_of_mem_linesOf (mem_of_blocks 1 _ b member line inside)
  exact ⟨named, fun n member => named ▸ sound.nodes n member, sound.distinct⟩

end Dialogue

end Parley
