import Parley.Proofs.Body.Replies

/-!
Pointers as they are written. What is written of a pointer that has been read is the text that it
was read from.
-/
namespace Parley

/-! Parts between separators -/

section Split

variable {separator : Char} {parts : List (List Char)}

theorem splitChars_ne_nil (separator : Char) (cs : List Char) : splitChars separator cs ≠ [] := by
  fun_cases splitChars separator cs <;> simp_all

theorem splitChars_eq_splitOn (separator : Char) (cs : List Char) :
    splitChars separator cs = cs.splitOn separator := by
  induction cs with
  | nil => rfl
  | cons c rest ih =>
    rw [splitChars, List.splitOn, List.splitOnP_cons_eq_if_modifyHead, ← List.splitOn, ← ih]
    by_cases same : c = separator
    · simp [same]
    · cases parts : splitChars separator rest with
      | nil => exact absurd parts (splitChars_ne_nil separator rest)
      | cons part others => simp [same]

/-- A text is its parts with the separator between them. -/
theorem intercalate_splitChars (separator : Char) (cs : List Char) :
    [separator].intercalate (splitChars separator cs) = cs := by
  rw [splitChars_eq_splitOn]
  exact List.intercalate_splitOn separator

/-- Parts in which the separator does not stand are cut again where they were joined. -/
theorem splitChars_intercalate (some : parts ≠ []) (inner : ∀ part ∈ parts, separator ∉ part) :
    splitChars separator ([separator].intercalate parts) = parts := by
  rw [splitChars_eq_splitOn]
  exact List.splitOn_intercalate separator inner some

theorem not_mem_splitChars (separator : Char) (cs : List Char) :
    ∀ part ∈ splitChars separator cs, separator ∉ part := by
  induction cs with
  | nil => simp [splitChars]
  | cons c rest ih =>
    rw [splitChars]
    split
    · intro part member
      rcases List.mem_cons.mp member with rfl | later
      · simp
      · exact ih part later
    · rename_i other
      cases parts : splitChars separator rest with
      | nil => exact absurd parts (splitChars_ne_nil separator rest)
      | cons first others =>
        rw [parts] at ih
        intro part member
        rcases List.mem_cons.mp member with rfl | later
        · rw [List.mem_cons, not_or]
          exact ⟨Ne.symm other, ih first List.mem_cons_self⟩
        · exact ih part (List.mem_cons_of_mem first later)

theorem mem_intercalate {c : Char} (member : c ∈ [separator].intercalate parts) :
    c = separator ∨ ∃ part ∈ parts, c ∈ part := by
  induction parts with
  | nil => cases member
  | cons part rest ih =>
    cases rest with
    | nil =>
      rw [List.intercalate_singleton] at member
      exact .inr ⟨part, List.mem_cons_self, member⟩
    | cons second more =>
      rw [List.intercalate_cons_cons, List.append_assoc, List.mem_append, List.mem_append,
        List.mem_singleton] at member
      rcases member with here | rfl | later
      · exact .inr ⟨part, List.mem_cons_self, here⟩
      · exact .inl rfl
      · rcases ih later with same | ⟨found, inside, here⟩
        · exact .inl same
        · exact .inr ⟨found, List.mem_cons_of_mem part inside, here⟩

theorem last_suffix_intercalate (separator : Char) (parts : List (List Char)) :
    parts.getLastD [] <:+ [separator].intercalate parts := by
  induction parts with
  | nil => exact List.nil_suffix
  | cons part rest ih =>
    cases rest with
    | nil =>
      rw [List.intercalate_singleton]
      exact List.suffix_rfl
    | cons second more =>
      rw [List.intercalate_cons_cons]
      exact ih.trans (List.suffix_append _ _)

/-- Between parts that are not empty no separator follows another. -/
theorem chain_intercalate (some : ∀ part ∈ parts, part ≠ [])
    (inner : ∀ part ∈ parts, separator ∉ part) :
    ([separator].intercalate parts).IsChain (fun c d => ¬(c = separator ∧ d = separator)) ∧
      ∀ c ∈ ([separator].intercalate parts).head?, c ≠ separator := by
  induction parts with
  | nil => exact ⟨.nil, by simp [List.intercalate]⟩
  | cons part rest ih =>
    have other : ∀ c ∈ part, c ≠ separator := by
      rintro c member rfl
      exact inner part List.mem_cons_self member
    have alone : part.IsChain fun c d => ¬(c = separator ∧ d = separator) := by
      refine List.Pairwise.isChain (List.pairwise_of_forall_mem_list fun c member d _ same => ?_)
      exact other c member same.1
    cases rest with
    | nil =>
      rw [List.intercalate_singleton]
      exact ⟨alone, fun c head => other c (List.mem_of_mem_head? head)⟩
    | cons second more =>
      obtain ⟨later, start⟩ := ih (fun p member => some p (List.mem_cons_of_mem part member))
        fun p member => inner p (List.mem_cons_of_mem part member)
      rw [List.intercalate_cons_cons, List.append_assoc]
      constructor
      · refine alone.append (List.isChain_cons.mpr ⟨fun c head same => start c head same.2, later⟩)
          ?_
        exact fun c last d _ same => other c (List.mem_of_getLast? last) same.1
      · intro c head
        rw [List.head?_append_of_ne_nil part (some part List.mem_cons_self)] at head
        exact other c (List.mem_of_mem_head? head)

end Split

namespace Pointer

open Body

theorem letters_of_isNodeName {cs : List Char} (named : isNodeName cs) :
    cs ≠ [] ∧ ∀ c ∈ cs, isNodeNameChar c := by
  obtain ⟨some, all⟩ := Bool.and_eq_true_iff.mp named
  exact ⟨by simpa using some, List.all_eq_true.mp all⟩

theorem pointerText_of_isNodeName {cs : List Char} (named : isNodeName cs) : PointerText cs := by
  obtain ⟨some, letters⟩ := letters_of_isNodeName named
  refine ⟨some, fun c member => .inl (letters c member), ?_⟩
  refine List.Pairwise.isChain (List.pairwise_of_forall_mem_list fun c member d _ same => ?_)
  have letter := letters c member
  rw [same.1] at letter
  revert letter
  decide

/-- The letters of a folder. -/
theorem mem_folder {part : List Char} (folder : isFolder part) :
    part ≠ [] ∧ ∀ c ∈ part, isNodeNameChar c ∨ c = '.' := by
  simp only [isFolder, Bool.or_eq_true, decide_eq_true_eq] at folder
  rcases folder with (rfl | rfl) | named
  · simp
  · simp
  · obtain ⟨some, letters⟩ := letters_of_isNodeName named
    exact ⟨some, fun c member => .inl (letters c member)⟩

theorem pointerText_of_parts {target name node : List Char}
    (cut : splitChars '.' ((splitChars '/' target).getLastD []) = [name, node])
    (folders : (splitChars '/' target).dropLast.all isFolder) (named : isNodeName name)
    (noded : isNodeName node) :
    PointerText target ∧ (∀ c ∈ target.head?, c ≠ '/') ∧
      ∃ front, target = front ++ '.' :: node := by
  have whole := intercalate_splitChars '/' target
  have last := intercalate_splitChars '.' ((splitChars '/' target).getLastD [])
  rw [cut, List.intercalate_cons_cons, List.intercalate_singleton] at last
  have front : (splitChars '/' target).dropLast ++ [(splitChars '/' target).getLastD []] =
      splitChars '/' target := by
    rw [List.getLastD_eq_getLast?, List.getLast?_eq_some_getLast (splitChars_ne_nil '/' target)]
    exact List.dropLast_concat_getLast _
  have parts : ∀ part ∈ splitChars '/' target,
      part ≠ [] ∧ ∀ c ∈ part, isNodeNameChar c ∨ c = '.' := by
    intro part member
    rw [← front, List.mem_append, List.mem_singleton] at member
    rcases member with folder | rfl
    · exact mem_folder (List.all_eq_true.mp folders part folder)
    · rw [← last]
      refine ⟨by simp, fun c inside => ?_⟩
      simp only [List.append_assoc, List.singleton_append, List.mem_append, List.mem_cons] at inside
      rcases inside with here | rfl | here
      · exact .inl ((letters_of_isNodeName named).2 c here)
      · exact .inr rfl
      · exact .inl ((letters_of_isNodeName noded).2 c here)
  obtain ⟨single, start⟩ := chain_intercalate (fun part member => (parts part member).1)
    (not_mem_splitChars '/' target)
  obtain ⟨before, behind⟩ := last_suffix_intercalate '/' (splitChars '/' target)
  rw [whole] at single start behind
  refine ⟨⟨?_, fun c member => ?_, single⟩, start, before ++ name, ?_⟩
  · rw [← behind, ← last]
    simp
  · rw [← whole] at member
    rcases mem_intercalate member with rfl | ⟨part, inside, here⟩
    · exact .inr (.inl rfl)
    · exact ((parts part inside).2 c here).imp_right .inr
  · rw [← behind, ← last]
    simp

theorem take_point (front node : List Char) :
    (front ++ '.' :: node).take ((front ++ '.' :: node).length - node.length - 1) = front := by
  have length : (front ++ '.' :: node).length - node.length - 1 = front.length := by
    rw [List.length_append, List.length_cons]
    omega
  rw [length, List.take_left]

/-- Behind a slash in front or none, a reference to a node of another dialogue is cut at slashes and
at the one point of its last part. -/
theorem parts_of_external {written reference node : List Char}
    (found : external? written = some (reference, node)) :
    ∃ target name, (written = target ∨ written = '/' :: target) ∧
      splitChars '.' ((splitChars '/' target).getLastD []) = [name, node] ∧
      (splitChars '/' target).dropLast.all isFolder ∧ isNodeName name ∧ isNodeName node ∧
      reference = written.take (written.length - node.length - 1) := by
  unfold external? at found
  extract_lets target parts at found
  have shape : written = target ∨ written = '/' :: target := by
    unfold target
    split <;> simp
  split at found
  · rename_i name last cut
    rw [Option.ite_none_right_eq_some] at found
    simp only [Bool.and_eq_true] at found
    obtain ⟨⟨⟨folders, named⟩, noded⟩, same⟩ := found
    cases same
    exact ⟨target, name, shape, cut, folders, named, noded, rfl⟩
  · cases found

/-- A reference to another dialogue is one word, and is cut before its last point. -/
theorem pointerText_of_external {written reference node : List Char}
    (found : external? written = some (reference, node)) :
    PointerText written ∧ written = reference ++ '.' :: node := by
  obtain ⟨target, name, shape, cut, folders, named, noded, rfl⟩ := parts_of_external found
  obtain ⟨word, start, front, behind⟩ := pointerText_of_parts cut folders named noded
  rcases shape with same | same
  · refine ⟨same ▸ word, ?_⟩
    rw [same, behind, take_point]
  · have slash : PointerText ('/' :: target) := by
      obtain ⟨_, letters, single⟩ := word
      refine ⟨by simp, fun c member => ?_, List.isChain_cons.mpr ⟨fun c head both => ?_, single⟩⟩
      · rcases List.mem_cons.mp member with rfl | inside
        · exact .inr (.inl rfl)
        · exact letters c inside
      · exact start c head both.2
    refine ⟨same ▸ slash, ?_⟩
    rw [same, behind, ← List.cons_append, take_point]

theorem toScript_of_ofText {dialogue text : String} {p : Pointer}
    (read : ofText dialogue text = .ok p) : p.toScript = text ∧ PointerText text.toList := by
  unfold ofText at read
  dsimp only at read
  split at read
  · rename_i named
    cases read
    exact ⟨rfl, pointerText_of_isNodeName named⟩
  · split at read
    · cases read
    · rename_i reference node found
      obtain ⟨word, same⟩ := pointerText_of_external found
      split at read
      · cases read
        refine ⟨String.toList_inj.mp ?_, word⟩
        simp [toScript, same]
      · cases read

end Pointer
end Parley
