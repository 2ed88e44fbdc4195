import Parley.Dialogue.Parser
import Parley.Proofs.Body.Pointers

/-!
Headers of nodes. The lines that are written of a header that has been read are read as the same
header: its names and values have no comment, no break and no blanks at their ends.
-/
namespace Parley

/-! Text in a line of a header -/

/-- Whether a text is kept by a line of a header as it stands. -/
structure Plain (cs : List Char) : Prop where
  uncommented : ¬ ['/', '/'] <:+: cs
  stripped : stripChars cs = cs
  flat : ∀ c ∈ cs, isLineBreak c = false

/-- Whether a text can be the name of a line. -/
structure Plain.Name (cs : List Char) : Prop extends Plain cs where
  some : cs ≠ []
  noColon : ':' ∉ cs

namespace Dialogue

theorem isPrefix_uncommented (line : List Char) : uncommented line <+: line := by
  fun_induction uncommented line with
  | case1 => exact List.prefix_refl []
  | case2 rest => exact List.nil_prefix
  | case3 c rest _ ih => exact List.cons_prefix_cons.mpr ⟨rfl, ih⟩

theorem not_isInfix_uncommented (line : List Char) : ¬ ['/', '/'] <:+: uncommented line := by
  fun_induction uncommented line with
  | case1 => simp
  | case2 rest => simp
  | case3 c rest other ih =>
    intro inside
    rcases List.infix_cons_iff.mp inside with first | later
    · obtain ⟨same, second⟩ := List.cons_prefix_cons.mp first
      obtain ⟨more, behind⟩ := second.trans (isPrefix_uncommented rest)
      exact other more same.symm behind.symm
    · exact ih later

theorem uncommented_of_not_isInfix {line : List Char} (none : ¬ ['/', '/'] <:+: line) :
    uncommented line = line := by
  fun_induction uncommented line with
  | case1 => rfl
  | case2 rest => exact (none ⟨[], rest, rfl⟩).elim
  | case3 c rest _ ih => rw [ih fun inside => none (inside.trans (List.suffix_cons c rest).isInfix)]

end Dialogue

theorem isInfix_stripChars (cs : List Char) : stripChars cs <:+: cs := by
  have front : dropEnd isBlank (cs.dropWhile isBlank) <+: cs.dropWhile isBlank :=
    List.rdropWhile_prefix isBlank _
  exact front.isInfix.trans (List.dropWhile_suffix _).isInfix

theorem stripChars_stripChars (cs : List Char) : stripChars (stripChars cs) = stripChars cs :=
  dropWhile_dropped cs

/-- Only blanks are stripped. -/
theorem mem_stripChars {c : Char} {cs : List Char} (member : c ∈ cs) (filled : isBlank c = false) :
    c ∈ stripChars cs := by
  have whole : cs = cs.takeWhile isBlank ++
      (stripChars cs ++ (cs.dropWhile isBlank).rtakeWhile isBlank) := by
    rw [stripChars]
    exact (List.takeWhile_append_dropWhile (p := isBlank)).symm.trans
      (congrArg _ (List.rdropWhile_append_rtakeWhile ..).symm)
  rw [whole] at member
  rcases List.mem_append.mp member with front | behind
  · cases (List.mem_takeWhile_imp front).symm.trans filled
  · rcases List.mem_append.mp behind with inside | back
    · exact inside
    · cases (List.mem_rtakeWhile_imp back).symm.trans filled

/-- What stands in a line apart from a comment is plain when it is stripped. -/
theorem plain_stripChars {line part : List Char} (inside : part <:+: Dialogue.uncommented line)
    (flat : ∀ c ∈ line, isLineBreak c = false) : Plain (stripChars part) := by
  have within := (isInfix_stripChars part).trans inside
  exact ⟨fun comment => Dialogue.not_isInfix_uncommented line (comment.trans within),
    stripChars_stripChars part,
    fun c member => flat c ((Dialogue.isPrefix_uncommented line).subset (within.subset member))⟩

namespace Header

/-- What holds of a tag that has been read. -/
structure TagSound (entry : String × String) : Prop where
  name : Plain.Name entry.1.toList
  notTitle : entry.1 ≠ "title"
  notSpeaker : entry.1 ≠ "speaker"
  value : Plain entry.2.toList

/-- What holds of a header that has been read. -/
structure Sound (h : Header) : Prop where
  title : isNodeName h.title.toList
  speaker : if Pointer.isEndId h.title then h.speaker = none
    else ∃ s, h.speaker = some s ∧ s.isEmpty = false ∧ Plain s.toList
  tags : ∀ entry ∈ h.tags, TagSound entry
  single : (Assoc.keys h.tags).Nodup

end Header

namespace Dialogue.HeaderLines

variable {taken : String → Bool} {h h' : HeaderLines} {number : Nat}

/-- What a line does to a header: nothing if it is blank, else it adds what it names, which is not
there yet. -/
inductive Takes (taken : String → Bool) (h : HeaderLines) : HeaderLines → Prop
  | blank : Takes taken h h
  | title {value : String} (new : "title" ∉ h.seen) (named : isNodeName value.toList)
      (free : taken value = false) :
      Takes taken h { h with title := some value, seen := h.seen ++ ["title"] }
  | speaker {value : String} {place : Position} (new : "speaker" ∉ h.seen)
      (plain : Plain value.toList) :
      Takes taken h { h with speaker := some (value, place), seen := h.seen ++ ["speaker"] }
  | tag {key value : String} (new : key ∉ h.seen) (sound : Header.TagSound (key, value)) :
      Takes taken h { h with tags := h.tags ++ [(key, value)], seen := h.seen ++ [key] }

theorem takes_of_add {line : List Char} (flat : ∀ c ∈ line, isLineBreak c = false)
    (read : h.add taken number line = .ok h') : Takes taken h h' := by
  unfold HeaderLines.add at read
  dsimp only at read
  split at read
  · cases read
    exact .blank
  split at read
  · cases read
  rename_i colon after rest
  have before : (uncommented line).takeWhile (· != ':') <:+: uncommented line :=
    (List.takeWhile_prefix _).isInfix
  have behind : after <:+: uncommented line :=
    ((List.suffix_cons colon after).trans (rest ▸ List.drop_suffix _ _)).isInfix
  have noColon : ':' ∉ stripChars ((uncommented line).takeWhile (· != ':')) := fun member => by
    simpa using List.mem_takeWhile_imp ((isInfix_stripChars _).subset member)
  have key := plain_stripChars before flat
  have value := plain_stripChars behind flat
  rw [← String.toList_ofList (l := stripChars after)] at value
  generalize String.ofList (stripChars after) = written at read value
  rw [← String.toList_ofList (l := stripChars _)] at key noColon
  generalize String.ofList (stripChars _) = name at read key noColon
  split at read
  · cases read
  rename_i some
  split at read
  · cases read
  rename_i new
  have new : name ∉ h.seen := by simpa using new
  split at read
  · rename_i isTitle
    subst isTitle
    split at read
    · cases read
    · rename_i named
      split at read
      · cases read
      · rename_i free
        cases read
        exact .title new (by simpa using named) (by simpa using free)
  · rename_i notTitle
    split at read
    · rename_i isSpeaker
      subst isSpeaker
      cases read
      exact .speaker new value
    · rename_i notSpeaker
      cases read
      exact .tag new ⟨⟨key, by simpa using some, noColon⟩, notTitle, notSpeaker, value⟩

/-- What holds of a header as far as it has been read. -/
structure Sound (taken : String → Bool) (h : HeaderLines) : Prop where
  title : ∀ t ∈ h.title, isNodeName t.toList ∧ taken t = false
  speaker : ∀ entry ∈ h.speaker, Plain entry.1.toList
  tags : ∀ entry ∈ h.tags, Header.TagSound entry
  listed : Assoc.keys h.tags ⊆ h.seen
  single : (Assoc.keys h.tags).Nodup

theorem sound_initial : initial.Sound taken :=
  ⟨by simp [initial], by simp [initial], by simp [initial], List.Subset.refl _, List.nodup_nil⟩

theorem Sound.takes (sound : h.Sound taken) (takes : Takes taken h h') : h'.Sound taken := by
  have more (key : String) : Assoc.keys h.tags ⊆ h.seen ++ [key] :=
    List.Subset.trans sound.listed (List.subset_append_left _ _)
  cases takes with
  | blank => exact sound
  | title _ named free =>
    refine ⟨?_, sound.speaker, sound.tags, more _, sound.single⟩
    rintro t ⟨⟩
    exact ⟨named, free⟩
  | speaker _ plain =>
    refine ⟨sound.title, ?_, sound.tags, more _, sound.single⟩
    rintro entry ⟨⟩
    exact plain
  | @tag key value new tag =>
    have keys : Assoc.keys (h.tags ++ [(key, value)]) = Assoc.keys h.tags ++ [key] :=
      List.map_append
    refine ⟨sound.title, sound.speaker, fun entry member => ?_, ?_, ?_⟩
    · rcases List.mem_append.mp member with earlier | last
      · exact sound.tags entry earlier
      · exact List.mem_singleton.mp last ▸ tag
    · rw [keys]
      exact List.append_subset.mpr ⟨more key, List.subset_append_right _ _⟩
    · rw [keys]
      refine List.nodup_append.mpr ⟨sound.single, by simp, ?_⟩
      rintro other earlier last member rfl
      exact new (List.mem_singleton.mp member ▸ sound.listed earlier)

theorem Sound.addAll {lines : List (List Char)} (sound : h.Sound taken)
    (flat : ∀ line ∈ lines, ∀ c ∈ line, isLineBreak c = false)
    (read : h.addAll taken number lines = .ok h') : h'.Sound taken := by
  induction lines generalizing h number with
  | nil =>
    cases read
    exact sound
  | cons line rest ih =>
    rw [HeaderLines.addAll] at read
    split at read
    · rename_i next added
      exact ih (sound.takes (takes_of_add (flat line List.mem_cons_self) added))
        (fun other member => flat other (List.mem_cons_of_mem line member)) read
    · cases read

/-- A header that has been read is sound, and its title is not taken. -/
theorem Sound.header {found : Header} (sound : h.Sound taken)
    (read : h.header number = .ok found) : found.Sound ∧ taken found.title = false := by
  unfold HeaderLines.header at read
  split at read
  · cases read
  rename_i title given
  obtain ⟨named, free⟩ := sound.title title given
  split at read
  · rename_i isEnd
    cases read
    exact ⟨⟨named, by rw [if_pos isEnd], sound.tags, sound.single⟩, free⟩
  · rename_i notEnd
    split at read
    · cases read
    · rename_i speaker place said
      split at read
      · cases read
      · rename_i some
        cases read
        refine ⟨⟨named, ?_, sound.tags, sound.single⟩, free⟩
        rw [if_neg notEnd]
        exact ⟨speaker, rfl, by simpa using some, sound.speaker _ said⟩

/-! Lines that are written -/

theorem uncommented_append {cs : List Char} (none : ¬ ['/', '/'] <:+: cs) {c : Char}
    (other : c ≠ '/') (rest : List Char) :
    uncommented (cs ++ c :: rest) = cs ++ c :: uncommented rest := by
  have one (d : Char) (more : List Char) (no : ¬ (d = '/' ∧ more.head? = some '/')) :
      uncommented (d :: more) = d :: uncommented more := by
    rw [uncommented]
    rintro tail rfl rfl
    exact no ⟨rfl, rfl⟩
  induction cs with
  | nil => exact one c rest fun both => other both.1
  | cons d more ih =>
    have later := ih fun inside => none (inside.trans (List.suffix_cons d more).isInfix)
    rw [List.cons_append, one, later]
    · rfl
    · rintro ⟨rfl, head⟩
      cases more with
      | nil => exact other (Option.some.inj head)
      | cons e others =>
        cases head
        exact none ⟨[], others, rfl⟩

variable {key value : String}

theorem toList_tagLine (key value : String) :
    (Header.tagLine key value).toList = key.toList ++ ':' :: ' ' :: value.toList := by
  simp [Header.tagLine]

theorem uncommented_tagLine (name : Plain.Name key.toList) (plain : Plain value.toList) :
    uncommented (Header.tagLine key value).toList = key.toList ++ ':' :: ' ' :: value.toList := by
  have space : uncommented (' ' :: value.toList) = ' ' :: value.toList := by
    rw [← List.nil_append (' ' :: value.toList),
      uncommented_append (by simp) (by decide), uncommented_of_not_isInfix plain.uncommented]
  rw [toList_tagLine, uncommented_append name.uncommented (by decide), space]

/-- What a line that is written of a name and a value is told to hold. -/
theorem add_tagLine (taken : String → Bool) (h : HeaderLines) (number : Nat)
    (name : Plain.Name key.toList) (plain : Plain value.toList)
    (new : key ∉ h.seen) : ∃ place : Position,
    h.add taken number (Header.tagLine key value).toList =
      if key = "title" then
        if !isNodeName value.toList then .error ((Cause.invalidTitle value).placedAt place)
        else if taken value then .error ((Cause.duplicateTitle value).placedAt place)
        else .ok { h with title := some value, seen := h.seen ++ [key] }
      else if key = "speaker" then
        .ok { h with speaker := some (value, place), seen := h.seen ++ [key] }
      else .ok { h with tags := h.tags ++ [(key, value)], seen := h.seen ++ [key] } := by
  have text := uncommented_tagLine name plain
  have filled : (key.toList ++ ':' :: ' ' :: value.toList).all isBlank = false := by
    have colon : isBlank ':' = false := by decide
    rw [List.all_append, List.all_cons, colon, Bool.false_and, Bool.and_false]
  have before : (key.toList ++ ':' :: ' ' :: value.toList).takeWhile (· != ':') = key.toList :=
    takeWhile_append_of_stop (fun c member => by
      simpa using fun same : c = ':' => name.noColon (same ▸ member)) (by simp)
  have behind : stripChars (' ' :: value.toList) = value.toList :=
    (congrArg (dropEnd isBlank) (List.dropWhile_cons_of_pos (by decide))).trans plain.stripped
  have some : key.isEmpty = false := by simpa using name.some
  have fresh : h.seen.contains key = false := by simpa using new
  refine ⟨⟨number, key.toList.length + 2 + blankLength (' ' :: value.toList)⟩, ?_⟩
  unfold HeaderLines.add
  simp only [text, filled, before, List.drop_left, name.stripped, behind, String.ofList_toList,
    some, fresh]
  rfl

theorem plain_of_isNodeName {cs : List Char} (named : isNodeName cs) : Plain cs := by
  obtain ⟨_, all⟩ := Pointer.letters_of_isNodeName named
  have letter (c : Char) (member : c ∈ cs) : isLineBreak c = false ∧ isBlank c = false := by
    obtain ⟨inside, filled, _⟩ := Body.letter_of_pointer (.inl (all c member))
    exact ⟨inside, filled⟩
  refine ⟨fun comment => ?_, stripChars_of_filled fun c member => (letter c member).2,
    fun c member => (letter c member).1⟩
  have slash := all '/' (comment.subset List.mem_cons_self)
  revert slash
  decide

theorem name_title : Plain.Name "title".toList :=
  ⟨plain_of_isNodeName (by decide), by decide, by decide⟩

theorem name_speaker : Plain.Name "speaker".toList :=
  ⟨plain_of_isNodeName (by decide), by decide, by decide⟩

theorem addAll_cons {line : List Char} {rest : List (List Char)}
    (added : h.add taken number line = .ok h') :
    h.addAll taken number (line :: rest) = h'.addAll taken (number + 1) rest := by
  rw [HeaderLines.addAll, added]

theorem addAll_tags {tags : List (String × String)} (sound : ∀ entry ∈ tags, Header.TagSound entry)
    (single : (Assoc.keys tags).Nodup) (new : ∀ key ∈ Assoc.keys tags, key ∉ h.seen) :
    h.addAll taken number (tags.map fun entry => (Header.tagLine entry.1 entry.2).toList) =
      .ok { h with tags := h.tags ++ tags, seen := h.seen ++ Assoc.keys tags } := by
  induction tags generalizing h number with
  | nil => simp [HeaderLines.addAll, Assoc.keys]
  | cons entry rest ih =>
    obtain ⟨key, value⟩ := entry
    have first := sound (key, value) List.mem_cons_self
    obtain ⟨place, added⟩ := add_tagLine taken h number first.name first.value
      (new key List.mem_cons_self)
    rw [if_neg first.notTitle, if_neg first.notSpeaker] at added
    obtain ⟨notLater, single⟩ : key ∉ Assoc.keys rest ∧ (Assoc.keys rest).Nodup :=
      List.nodup_cons.mp single
    rw [List.map_cons, addAll_cons added,
      ih (fun e member => sound e (List.mem_cons_of_mem _ member)) single]
    · simp [Assoc.keys]
    · intro other later seen
      rcases List.mem_append.mp seen with earlier | last
      · exact new other (List.mem_cons_of_mem _ later) earlier
      · rw [List.mem_singleton.mp last] at later
        exact notLater later

end Dialogue.HeaderLines

/-- The lines of a header. -/
def Header.lines (h : Header) : List (List Char) :=
  (tagLine "title" h.title).toList ::
    (h.speaker.toList.map fun s => (tagLine "speaker" s).toList) ++
      h.tags.map fun entry => (tagLine entry.1 entry.2).toList

namespace Dialogue.HeaderLines

/-- The lines of a header that has been read are read as the same header, where its title is not
taken. -/
theorem addAll_lines {h : Header} (sound : h.Sound) (free : taken h.title = false) (number : Nat) :
    ∃ found, initial.addAll taken number h.lines = .ok found ∧
      ∀ last, found.header last = .ok h := by
  obtain ⟨title, speaker, tags⟩ := h
  have named : isNodeName title.toList := sound.title
  have freed : taken title = false := free
  obtain ⟨place, first⟩ := add_tagLine taken initial number name_title
    (plain_of_isNodeName named) (by simp [initial])
  rw [if_pos rfl, named, freed] at first
  have keys (key : String) (listed : key ∈ Assoc.keys tags) : key ≠ "title" ∧ key ≠ "speaker" := by
    obtain ⟨entry, member, rfl⟩ := List.mem_map.mp listed
    exact ⟨(sound.tags entry member).notTitle, (sound.tags entry member).notSpeaker⟩
  have speaks := sound.speaker
  dsimp only at speaks
  split at speaks
  · rename_i isEnd
    subst speaks
    have lines : Header.lines ⟨title, none, tags⟩ = (Header.tagLine "title" title).toList ::
        tags.map fun entry => (Header.tagLine entry.1 entry.2).toList := rfl
    rw [lines, addAll_cons first, addAll_tags sound.tags sound.single]
    · exact ⟨_, rfl, fun last => by simp [HeaderLines.header, isEnd, initial]⟩
    · intro key listed
      simpa [initial] using (keys key listed).1
  · rename_i notEnd
    obtain ⟨s, rfl, filled, plain⟩ := speaks
    have lines : Header.lines ⟨title, some s, tags⟩ = (Header.tagLine "title" title).toList ::
        (Header.tagLine "speaker" s).toList ::
          tags.map fun entry => (Header.tagLine entry.1 entry.2).toList := rfl
    obtain ⟨place', second⟩ := add_tagLine taken
      { initial with title := some title, seen := initial.seen ++ ["title"] } (number + 1)
      name_speaker plain (by simp [initial])
    rw [if_neg (by decide), if_pos rfl] at second
    rw [lines, addAll_cons first, addAll_cons second, addAll_tags sound.tags sound.single]
    · exact ⟨_, rfl, fun last => by simp [HeaderLines.header, notEnd, filled, initial]⟩
    · intro key listed
      simpa [initial] using keys key listed

theorem marks_of_tagLine {key value : String} (name : Plain.Name key.toList)
    (plain : Plain value.toList) :
    (Header.tagLine key value).toList ≠ [] ∧
      (∀ c ∈ (Header.tagLine key value).toList, isLineBreak c = false) ∧
      isHeaderEnd (Header.tagLine key value).toList = false ∧
      isNodeEnd (Header.tagLine key value).toList = false := by
  have colon : ':' ∈ contentOf (Header.tagLine key value).toList := by
    rw [contentOf, uncommented_tagLine name plain]
    exact mem_stripChars (by simp) (by decide)
  have other {mark : List Char} (none : ':' ∉ mark) :
      (contentOf (Header.tagLine key value).toList == mark) = false :=
    beq_eq_false_iff_ne.mpr fun same => none (same ▸ colon)
  refine ⟨by simp [toList_tagLine], fun c member => ?_, other (by decide), other (by decide)⟩
  rw [toList_tagLine] at member
  rcases List.mem_append.mp member with inside | behind
  · exact name.flat c inside
  · simp only [List.mem_cons] at behind
    rcases behind with rfl | rfl | inside
    · decide
    · decide
    · exact plain.flat c inside

/-- The lines of a header that has been read are none of the lines that divide a script. -/
theorem marks_of_lines {h : Header} (sound : h.Sound) : ∀ line ∈ h.lines,
    line ≠ [] ∧ (∀ c ∈ line, isLineBreak c = false) ∧ isHeaderEnd line = false ∧
      isNodeEnd line = false := by
  intro line member
  rcases List.mem_append.mp member with first | tag
  · rcases List.mem_cons.mp first with rfl | speaker
    · exact marks_of_tagLine name_title (plain_of_isNodeName sound.title)
    · obtain ⟨s, said, rfl⟩ := List.mem_map.mp speaker
      have speaks := sound.speaker
      split at speaks
      · rw [speaks] at said
        cases said
      · obtain ⟨t, given, _, plain⟩ := speaks
        rw [given] at said
        cases List.mem_singleton.mp said
        exact marks_of_tagLine name_speaker plain
  · obtain ⟨entry, listed, rfl⟩ := List.mem_map.mp tag
    exact marks_of_tagLine (sound.tags entry listed).name (sound.tags entry listed).value

end Dialogue.HeaderLines

end Parley
