import Parley.Proofs.Body.Uses
import Parley.Proofs.Dialogue.Nodes
import Parley.Proofs.Dialogue.Targets

/-!
Reading what is written of the nodes of a dialogue. Each script is framed by the lines of a header
and the line that ends a node, and what is read of a frame depends on nothing outside of it.
-/
namespace Parley

/-- Whether the script of a body is read again as the same body on its own, each of its lines with a
break, as the lines of a node are read. -/
def Body.ReadsBack (dialogue : String) (b : Body) : Prop :=
  ∃ c uses, Body.ofLines dialogue 1 (linesOf b.toScript.toList) = .ok (c, uses) ∧ b.Same c

/-- Whether two nodes have the same header and the same body. -/
structure Node.Same (n m : Node) : Prop where
  header : n.header = m.header
  body : n.body.Same m.body

/-! Bodies of nothing but text, for which reading decides whether they read back -/

/-- The texts of segments among which no command stands. -/
def Segment.texts? : List (Segment Command) → Option (List Template)
  | [] => some []
  | .text t :: rest => (texts? rest).map (t :: ·)
  | .command _ :: _ => none

theorem Segment.same_of_texts {segments others : List (Segment Command)} {ts : List Template}
    (first : texts? segments = some ts) (second : texts? others = some ts) :
    SegmentsSame segments others := by
  induction segments generalizing others ts with
  | nil =>
    cases first
    cases others with
    | nil => exact .nil
    | cons s rest => cases s <;> simp [texts?] at second
  | cons s rest ih =>
    cases s with
    | command c => cases first
    | text t =>
      obtain ⟨more, later, rfl⟩ := Option.map_eq_some_iff.mp first
      cases others with
      | nil => cases second
      | cons u others =>
        cases u with
        | command c => cases second
        | text u =>
          obtain ⟨_, later', same⟩ := Option.map_eq_some_iff.mp second
          cases same
          exact .text t (ih later later')

/-- The texts of a body that is nothing but text. -/
def Body.texts? : Body → Option (List Template)
  | ⟨segments, []⟩ => Segment.texts? segments
  | _ => none

theorem Body.same_of_texts {b c : Body} {ts : List Template} (first : b.texts? = some ts)
    (second : c.texts? = some ts) : b.Same c := by
  obtain ⟨segments, replies⟩ := b
  obtain ⟨others, answers⟩ := c
  cases replies with
  | cons r rest => cases first
  | nil =>
    cases answers with
    | cons r rest => cases second
    | nil => exact .intro (Segment.same_of_texts first second)

def Body.readsBackAsText (dialogue : String) (b : Body) : Bool :=
  b.texts?.isSome && (Body.ofLines dialogue 1 (linesOf b.toScript.toList)).toOption.any fun found =>
    found.1.texts? = b.texts?

theorem Body.readsBack_of_text {dialogue : String} {b : Body} (back : b.readsBackAsText dialogue) :
    b.ReadsBack dialogue := by
  obtain ⟨plain, again⟩ := Bool.and_eq_true_iff.mp back
  obtain ⟨ts, given⟩ := Option.isSome_iff_exists.mp plain
  obtain ⟨⟨c, uses⟩, found, same⟩ := (Option.any_eq_true _ _).mp again
  exact ⟨c, uses, toOption_eq_some_iff.mp found,
    Body.same_of_texts given ((of_decide_eq_true same).trans given)⟩

namespace Dialogue

/-! Reading the scripts of the nodes -/

/-- A line with nothing in it has no body. -/
theorem ofLines_blank (dialogue : String) : Body.ofLines dialogue 1 [[]] = .ok (.empty, []) := by
  have tokens : (Tokenizer.readLines .initial 1 [['\n']]).1 =
      .ok [⟨.text "\n", "\n", ⟨1, 1⟩⟩] := by
    rw [← toOption_eq_some_iff]
    decide +kernel
  refine bind_eq_ok_iff.mpr ⟨_, tokens, ?_⟩
  have items : Item.ofTokens [⟨.text "\n", "\n", ⟨1, 1⟩⟩] =
      [.text [⟨.text "\n", "\n", ⟨1, 1⟩⟩]] := by simp [Item.ofTokens]
  rw [Body.ofTokens, items]
  rfl

/-- In the script of its node a body that reads back is read as the same body, also if it is empty
and has a line there. -/
theorem same_of_lines {dialogue : String} {b : Body} (back : b.ReadsBack dialogue) :
    ∃ c uses, Body.ofLines dialogue 1 b.lines = .ok (c, uses) ∧ b.Same c := by
  unfold Body.lines
  split
  · rename_i none
    rw [Body.eq_empty_of_isEmpty none]
    exact ⟨.empty, [], ofLines_blank dialogue, .intro .nil⟩
  · exact back

/-- The script of a node is read as the same node. -/
theorem step_of_lines {r : Reading} {n : Node} (sound : n.Sound r.dialogue.name)
    (back : n.body.ReadsBack r.dialogue.name) (free : r.dialogue.hasNode n.title = false)
    (number : Nat) :
    ∃ (m : Node) (uses : List PointerUse), n.Same m ∧
      (∀ use ∈ uses, ∃ reply ∈ n.body.nested, reply.pointer = use.pointer) ∧
      r.step ⟨number, n.header.lines ++ Node.dashes :: n.body.lines, true⟩ =
        { r with
          dialogue := { r.dialogue with nodes := r.dialogue.nodes ++ [m] }
          pointers := r.pointers ++ uses.map (⟨m.title, ·⟩) } := by
  obtain ⟨c, uses, read, same⟩ := same_of_lines back
  obtain ⟨h, added, whole⟩ := HeaderLines.addAll_lines sound.header free number
  have further := (Body.ofLines_down (k := number + n.header.lines.length) _ _ _).eq_ok read
  rw [Nat.add_comm 1] at further
  have marks := HeaderLines.marks_of_lines sound.header
  have node := @nodeOf_of_frame _ r.dialogue.hasNode ⟨n.header, c⟩ _ number _ _ Node.dashes h
    (fun line member => (marks line member).2.2.1) (by decide) added whole further
    fun isEnd => same.isEmpty.trans (sound.ended isEnd)
  refine ⟨⟨n.header, c⟩, _, ⟨rfl, same⟩, fun use member => ?_, (by rw [Reading.step, node])⟩
  obtain ⟨old, earlier, rfl⟩ := List.mem_map.mp member
  obtain ⟨tokens, _, formed⟩ := bind_eq_ok_iff.mp read
  obtain ⟨reply, inside, leads⟩ := Body.nested_of_ofTokens formed old earlier
  exact ⟨reply, same.nested ▸ inside, leads⟩

/-- The joined scripts of nodes are read as the same nodes, if no line of a body ends a node. -/
theorem fold_of_lines {r : Reading} {nodes : List Node}
    (sound : ∀ n ∈ nodes, n.Sound r.dialogue.name)
    (back : ∀ n ∈ nodes, n.body.ReadsBack r.dialogue.name)
    (distinct : Distinct (r.dialogue.nodes ++ nodes))
    (inner : ∀ n ∈ nodes, ∀ line ∈ n.body.lines, isNodeEnd line = false) (number : Nat) :
    ∃ (again : List Node) (pointers : List NodePointer), List.Forall₂ Node.Same nodes again ∧
      (∀ p ∈ pointers, ∃ n ∈ nodes, ∃ reply ∈ n.body.nested, reply.pointer = p.use.pointer) ∧
      (blocks number (nodes.flatMap Node.lines)).foldl Reading.step r =
        { r with
          dialogue := { r.dialogue with nodes := r.dialogue.nodes ++ again }
          pointers := r.pointers ++ pointers } := by
  induction nodes generalizing r number with
  | nil =>
    have last : (blocks number []).foldl Reading.step r = r := rfl
    refine ⟨[], [], .nil, by simp, ?_⟩
    rw [List.flatMap_nil, last, List.append_nil, List.append_nil]
  | cons n rest ih =>
    have first : ∀ line ∈ n.header.lines ++ Node.dashes :: n.body.lines,
        isNodeEnd line = false := by
      intro line member
      rcases List.mem_append.mp member with header | behind
      · exact (HeaderLines.marks_of_lines (sound n List.mem_cons_self).header line header).2.2.2
      · rcases List.mem_cons.mp behind with rfl | body
        · decide
        · exact inner n List.mem_cons_self line body
    have lines : (n :: rest).flatMap Node.lines =
        (n.header.lines ++ Node.dashes :: n.body.lines) ++
          Node.equals :: rest.flatMap Node.lines := by
      simp [Node.lines]
    have split : r.dialogue.nodes ++ n :: rest = (r.dialogue.nodes ++ [n]) ++ rest := by simp
    have free : r.dialogue.hasNode n.title = false := by
      have earlier : Distinct (r.dialogue.nodes ++ [n]) := by
        rw [split, Distinct, List.map_append] at distinct
        exact (List.nodup_append.mp distinct).1
      exact (distinct_concat_iff.mp earlier).2
    obtain ⟨m, uses, same, leads, stepped⟩ := step_of_lines (sound n List.mem_cons_self)
      (back n List.mem_cons_self) free number
    have later : Distinct ((r.dialogue.nodes ++ [m]) ++ rest) := by
      rw [split, Distinct] at distinct
      simpa [Distinct, Node.title, same.header] using distinct
    rw [lines, blocks_of_frame number first (by decide), List.foldl_cons, stepped]
    obtain ⟨again, pointers, all, within, folded⟩ := @ih
      { r with
        dialogue := { r.dialogue with nodes := r.dialogue.nodes ++ [m] }
        pointers := r.pointers ++ uses.map (⟨m.title, ·⟩) }
      (fun o member => sound o (List.mem_cons_of_mem n member))
      (fun o member => back o (List.mem_cons_of_mem n member)) later
      (fun o member => inner o (List.mem_cons_of_mem n member)) _
    refine ⟨m :: again, uses.map (⟨m.title, ·⟩) ++ pointers, .cons same all, fun p member => ?_, ?_⟩
    · rcases List.mem_append.mp member with own | other
      · obtain ⟨use, noted, rfl⟩ := List.mem_map.mp own
        exact ⟨n, List.mem_cons_self, leads use noted⟩
      · obtain ⟨o, among, reply⟩ := within p other
        exact ⟨o, List.mem_cons_of_mem n among, reply⟩
    · rw [folded]
      simp

/-! The dialogue -/

theorem hasNode_of_same {d again : Dialogue} (same : List.Forall₂ Node.Same d.nodes again.nodes)
    (title : String) : again.hasNode title = d.hasNode title := by
  have titles {nodes others : List Node} (same : List.Forall₂ Node.Same nodes others) :
      (others.find? fun n => lower n.title == lower title).isSome =
        (nodes.find? fun n => lower n.title == lower title).isSome := by
    induction same with
    | nil => rfl
    | cons first _ ih =>
      simp only [List.find?_cons, Node.title, first.header]
      split
      · rfl
      · exact ih
  exact titles same

/-- Every node has a line that ends it. -/
theorem length_le_countP (nodes : List Node) :
    nodes.length ≤ (nodes.flatMap Node.lines).countP isNodeEnd := by
  induction nodes with
  | nil => simp
  | cons n rest ih =>
    have own : 1 ≤ n.lines.countP isNodeEnd :=
      List.one_le_countP_iff.mpr ⟨Node.equals, by simp [Node.lines], by decide⟩
    rw [List.flatMap_cons, List.countP_append, List.length_cons]
    omega

/-- A line of a body that ends a node is one too many. -/
theorem length_lt_countP {nodes : List Node} {n : Node} (member : n ∈ nodes) {line : List Char}
    (inside : line ∈ n.body.lines) (ends : isNodeEnd line) :
    nodes.length < (nodes.flatMap Node.lines).countP isNodeEnd := by
  obtain ⟨front, behind, rfl⟩ := List.append_of_mem member
  have own : 2 ≤ n.lines.countP isNodeEnd := by
    have body : 1 ≤ n.body.lines.countP isNodeEnd :=
      List.one_le_countP_iff.mpr ⟨line, inside, ends⟩
    have last : isNodeEnd Node.equals := by decide
    rw [Node.lines, List.countP_append, List.countP_cons, List.countP_append,
      List.countP_singleton, if_pos last]
    omega
  have first := length_le_countP front
  have later := length_le_countP behind
  rw [List.flatMap_append, List.flatMap_cons, List.countP_append, List.countP_append,
    List.length_append, List.length_cons]
  omega

/-- The script of a dialogue: those of its nodes, joined. -/
def script (d : Dialogue) : String := String.intercalate "\n" (d.nodes.map Node.toScript)

/-- Of a dialogue whose bodies read back on their own the joined scripts are read as the same nodes
exactly if no line of the script of a body is one that ends a node. -/
theorem scripts_read_back_iff {name text : String} {d : Dialogue} (read : ofText name text = .ok d)
    (back : ∀ n ∈ d.nodes, n.body.ReadsBack name) :
    (∃ again, ofText name d.script = .ok again ∧ List.Forall₂ Node.Same d.nodes again.nodes) ↔
      ∀ n ∈ d.nodes, ∀ line ∈ linesOf n.body.toScript.toList, isNodeEnd line = false := by
  have read : ofLines name (linesOf text.toList) = .ok d := read
  obtain ⟨rfl, sound, distinct⟩ := sound_of_ofLines read
  have lines : linesOf d.script.toList = d.nodes.flatMap Node.lines := Node.linesOf_scripts sound
  have again_eq (again : Dialogue) : ofText d.name d.script = .ok again ↔
      ofLines d.name (d.nodes.flatMap Node.lines) = .ok again := by rw [← lines]; rfl
  constructor
  · rintro ⟨again, reread, same⟩ n member line inside
    by_contra ends
    have filled : line ∈ n.body.lines := by
      unfold Body.lines
      split
      · rename_i none
        rw [Body.toScript_of_isEmpty none] at inside
        cases inside
      · exact inside
    have more := length_lt_countP member filled (by simpa using ends)
    have most := countP_le_length ((again_eq again).mp reread)
    rw [same.length_eq] at more
    omega
  · intro inner
    obtain ⟨r, _, _, named, start, _, same⟩ := ofLines_eq_ok_iff.mp read
    rw [same] at start
    have bodies : ∀ n ∈ d.nodes, ∀ line ∈ n.body.lines, isNodeEnd line = false := by
      intro n member line inside
      unfold Body.lines at inside
      split at inside
      · cases List.mem_singleton.mp inside
        decide
      · exact inner n member line inside
    obtain ⟨again, pointers, all, within, folded⟩ := @fold_of_lines ⟨⟨d.name, []⟩, [], []⟩ d.nodes
      sound back (by simpa using distinct) bodies 1
    have nodes : List.Forall₂ Node.Same d.nodes (Dialogue.mk d.name again).nodes := all
    refine ⟨⟨d.name, again⟩, (again_eq _).mpr (ofLines_eq_ok_iff.mpr
      ⟨_, folded, rfl, named, ?_, fun p member => ?_, rfl⟩), all⟩
    · exact (hasNode_of_same nodes "start").trans start
    · obtain ⟨n, among, reply, nested, same⟩ := within p member
      have leads : d.Leads reply.pointer :=
        Body.replies_of_meets (leads_of_ofLines read among) reply nested
      rw [← same]
      cases target : reply.pointer with
      | external => rfl
      | internal id =>
        rw [target] at leads
        simp only [isDangling, List.nil_append, hasNode_of_same nodes, Bool.and_eq_false_iff,
          Bool.not_eq_false']
        exact leads

theorem scripts_read_back_of_greeting : ∃ d,
    ofText "d" ("mood:calm // today\nspeaker: Bob\ntitle: Start\n---\n Hi $name!\n===\n\n" ++
      "title: End\n---\n===\n") = .ok d ∧
    (∀ n ∈ d.nodes, n.body.ReadsBack "d") ∧
    ((∃ again, ofText "d" d.script = .ok again ∧ List.Forall₂ Node.Same d.nodes again.nodes) ↔
      ∀ n ∈ d.nodes, ∀ line ∈ linesOf n.body.toScript.toList, isNodeEnd line = false) ∧
    d.script = "title: Start\nspeaker: Bob\nmood: calm\n---\nHi $name!\n===\n" ++
      "title: End\n---\n\n===" := by
  have found : (ofText "d" ("mood:calm // today\nspeaker: Bob\ntitle: Start\n---\n Hi $name!\n" ++
      "===\n\ntitle: End\n---\n===\n")).toOption.any (fun d =>
        d.nodes.all (fun n => n.body.readsBackAsText "d") && d.script =
          "title: Start\nspeaker: Bob\nmood: calm\n---\nHi $name!\n===\n" ++
            "title: End\n---\n\n===") = true := by
    decide +kernel
  obtain ⟨d, read, both⟩ := (Option.any_eq_true _ _).mp found
  obtain ⟨all, script⟩ := Bool.and_eq_true_iff.mp both
  have read := toOption_eq_some_iff.mp read
  have back : ∀ n ∈ d.nodes, n.body.ReadsBack "d" := fun n member =>
    Body.readsBack_of_text (List.all_eq_true.mp all n member)
  exact ⟨d, read, back, scripts_read_back_iff read back, of_decide_eq_true script⟩

/-- A text of three equals signs reads back on its own, but in the script of its node it ends the
node. -/
theorem script_of_equals_not_read : ∃ d,
    ofText "d" "title: Start\nspeaker: Bob\n---\n\\===\n===\n" = .ok d ∧
    (∀ n ∈ d.nodes, n.body.ReadsBack "d") ∧ ¬ ∃ again, ofText "d" d.script = .ok again := by
  have found : (ofText "d" "title: Start\nspeaker: Bob\n---\n\\===\n===\n").toOption.any (fun d =>
      d.nodes.all (fun n => n.body.readsBackAsText "d") &&
        (ofText "d" d.script).toOption.isNone) = true := by
    decide +kernel
  obtain ⟨d, read, both⟩ := (Option.any_eq_true _ _).mp found
  obtain ⟨all, none⟩ := Bool.and_eq_true_iff.mp both
  refine ⟨d, toOption_eq_some_iff.mp read,
    fun n member => Body.readsBack_of_text (List.all_eq_true.mp all n member), ?_⟩
  rintro ⟨again, reread⟩
  rw [toOption_eq_some_iff.mpr reread] at none
  cases none

end Dialogue

end Parley
