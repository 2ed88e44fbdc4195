import Parley.Proofs.Body.Values

/-!
Attributes in any layout. Blanks and ends of lines may stand in front of a name, behind an equals
sign and in front of the end of the command. Text is then cut into tokens at ends of lines, of which
there may be none or many in each gap; a name and its equals sign are never cut.
-/
namespace Parley

namespace Assoc

variable {κ α : Type} [DecidableEq κ]

theorem ofList_concat (pairs : List (κ × α)) (pair : κ × α) :
    ofList (pairs ++ [pair]) = insert pair.1 pair.2 (ofList pairs) := by
  rw [ofList, insertAll, List.foldl_append]
  rfl

/-- The keys of a map that is made of pairs are in the order in which they first come up. -/
theorem keys_ofList (pairs : List (κ × α)) : keys (ofList pairs) = (keys pairs).eraseDups := by
  induction pairs using List.reverseRecOn with
  | nil => rfl
  | append_singleton rest pair ih =>
    have split : keys (rest ++ [pair]) = keys rest ++ [pair.1] := List.map_append
    rw [ofList_concat, keys_insert, ih, split, List.eraseDups_append]
    by_cases member : pair.1 ∈ keys rest
    · simp [member, List.removeAll]
    · simp [member, List.removeAll]
      rfl

/-- Under a key of a map that is made of pairs stands what the last of them has under it. -/
theorem get?_ofList (key : κ) (pairs : List (κ × α)) :
    get? key (ofList pairs) = (pairs.reverse.find? (·.1 = key)).map (·.2) := by
  induction pairs using List.reverseRecOn with
  | nil => rfl
  | append_singleton rest pair ih =>
    rw [ofList_concat, List.reverse_concat, List.find?_cons]
    by_cases same : pair.1 = key
    · subst same
      simp [get?_insert_self]
    · rw [get?_insert_of_ne (Ne.symm same), ih]
      simp [same]

end Assoc

/-! Words between blanks -/

section Words

variable {before word after gap : List Char}

/-- Blanks around a text that has none at its ends are stripped. -/
theorem stripChars_padded (blank : ∀ c ∈ before, isBlank c) (blank' : ∀ c ∈ after, isBlank c)
    (some : word ≠ []) (first : ∀ c ∈ word.head?, isBlank c = false)
    (last : ∀ c ∈ word.getLast?, isBlank c = false) :
    stripChars (before ++ (word ++ after)) = word := by
  have start : (before ++ (word ++ after)).dropWhile isBlank = word ++ after := by
    apply dropWhile_append_of_stop blank
    rw [List.head?_append_of_ne_nil _ some]
    exact first
  have stop : (after.reverse ++ word.reverse).dropWhile isBlank = word.reverse := by
    apply dropWhile_append_of_stop fun c member => blank' c (List.mem_reverse.mp member)
    rw [List.head?_reverse]
    exact last
  rw [stripChars, start, dropEnd, List.reverse_append, stop, List.reverse_reverse]

/-- The first word of a text ends at the first blank, and what follows it starts behind the last of
the blanks. -/
theorem firstWord_spaced (some : word ≠ []) (filled : ∀ c ∈ word, isBlank c = false)
    (blank : ∀ c ∈ gap, isBlank c) (apart : gap ≠ [])
    (first : ∀ c ∈ after.head?, isBlank c = false) :
    firstWord (word ++ (gap ++ after)) = (word, after) := by
  have letters : ∀ c ∈ word, (!isBlank c) = true := fun c member => by rw [filled c member]; rfl
  have stop : ∀ c ∈ (gap ++ after).head?, (!isBlank c) = false := by
    intro c head
    rw [List.head?_append_of_ne_nil _ apart] at head
    simp [blank c (List.mem_of_mem_head? head)]
  have start : (word ++ (gap ++ after)).dropWhile isBlank = word ++ (gap ++ after) := by
    obtain ⟨d, others, rfl⟩ := List.exists_cons_of_ne_nil some
    exact List.dropWhile_cons_of_neg (by simp [filled d List.mem_cons_self])
  simp only [firstWord, start, takeWhile_append_of_stop letters stop,
    dropWhile_append_of_stop letters stop, dropWhile_append_of_stop blank first]

end Words

namespace Tokenizer

theorem isInner_of_isBlank {c : Char} (blank : isBlank c) : isInner c := by
  simp only [isInner, Bool.and_eq_true, bne_iff_ne]
  refine ⟨⟨⟨⟨⟨?_, ?_⟩, ?_⟩, ?_⟩, ?_⟩, ?_⟩ <;>
    · rintro rfl
      cases blank

/-- Characters that stand for themselves are sound pieces, those that end a line too. -/
theorem sound_plain (cs : List Char) : ∀ p ∈ plainPieces cs, p.Sound := by
  intro p member
  obtain ⟨c, _, rfl⟩ := List.mem_map.mp member
  refine ⟨?_, List.cons_ne_nil _ _, fun _ => List.cons_ne_nil _ _⟩
  cases ends : isLineBreak c with
  | true => exact .inr ⟨c, ends, rfl⟩
  | false =>
    refine .inl fun d inside => ?_
    rw [List.mem_singleton.mp inside]
    exact ends

/-! Tokens of text -/

/-- Whether a line ends with some text. -/
def EndsLine (cs : List Char) : Prop := ∃ b ∈ cs.getLast?, isLineBreak b

/-- The first token of some text is all of it or ends where a line ends. -/
theorem cut_plain {cs : List Char} {tokens : List Token} (some : cs ≠ [])
    (cut : Cut (plainPieces cs) tokens) :
    ∃ front rest position behind, cs = front ++ rest ∧ front ≠ [] ∧
      (rest = [] ∨ EndsLine front) ∧
      tokens = ⟨.text (String.ofList front), String.ofList front, position⟩ :: behind ∧
        Cut (plainPieces rest) behind := by
  generalize whole : plainPieces cs = ps at cut
  cases cut with
  | nil => exact absurd (List.map_eq_nil_iff.mp whole) some
  | mark =>
    have plain := @isPlain_of_mem_plain cs _ (whole ▸ List.mem_cons_self)
    cases plain
  | @text _ run rest value source position behind split plain value_eq source_eq filled stops
    later =>
    obtain ⟨front, others, rfl, rfl, rfl⟩ := List.map_eq_append_iff.mp (whole.trans split)
    change (plainPieces front).flatMap Piece.value = value at value_eq
    change sourceOf (plainPieces front) = source at source_eq
    rw [value_plain] at value_eq
    rw [sourceOf_plain] at source_eq
    subst value_eq source_eq
    refine ⟨front, others, position, behind, rfl, filled, ?_, rfl, later⟩
    rcases stops with mark | ⟨more, last, same, b, isBreak, rfl⟩
    · cases others with
      | nil => exact .inl rfl
      | cons c _ => cases mark (.plain [c] [c]) rfl
    · obtain ⟨_, end_, rfl, _, single⟩ := List.map_eq_append_iff.mp same
      obtain ⟨d, rfl, here⟩ := List.map_eq_singleton_iff.mp single
      cases here
      exact .inr ⟨b, by simp, isBreak⟩

/-- A word in which no line ends is not divided where a line ends. -/
theorem exists_of_flat {word rest front behind : List Char}
    (flat : ∀ c ∈ word, isLineBreak c = false) (some : front ≠ [])
    (ends : behind = [] ∨ EndsLine front) (same : word ++ rest = front ++ behind) :
    ∃ more, front = word ++ more ∧ rest = more ++ behind := by
  rcases List.append_eq_append_iff.mp same with ⟨more, rfl, rfl⟩ | ⟨more, rfl, rfl⟩
  · exact ⟨more, rfl, rfl⟩
  · rcases ends with none | ⟨b, last, isBreak⟩
    · obtain ⟨rfl, rfl⟩ := List.append_eq_nil_iff.mp none
      exact ⟨[], by simp, rfl⟩
    · have inside : b ∈ front ++ more := List.mem_append_left _ (List.mem_of_getLast? last)
      cases (flat b inside).symm.trans isBreak

/-- The first token of a text has all of the word that the text starts with. -/
theorem cut_word {word rest : List Char} {tokens : List Token} (some : word ≠ [])
    (flat : ∀ c ∈ word, isLineBreak c = false) (cut : Cut (plainPieces (word ++ rest)) tokens) :
    ∃ more later position behind, rest = more ++ later ∧ (later = [] ∨ EndsLine (word ++ more)) ∧
      tokens = ⟨.text (String.ofList (word ++ more)), String.ofList (word ++ more), position⟩ ::
        behind ∧ Cut (plainPieces later) behind := by
  obtain ⟨front, later, position, behind, same, filled, ends, rfl, cut'⟩ :=
    cut_plain (by simp [some]) cut
  obtain ⟨more, rfl, rfl⟩ := exists_of_flat flat filled ends same
  exact ⟨more, later, position, behind, rfl, ends, rfl, cut'⟩

theorem blank_of_cut {gap : List Char} {tokens : List Token} (blank : ∀ c ∈ gap, isBlank c)
    (cut : Cut (plainPieces gap) tokens) : ∀ t ∈ tokens, t.isBlank := by
  induction tokens generalizing gap with
  | nil => simp
  | cons t rest ih =>
    have some : gap ≠ [] := by
      rintro rfl
      cases cut_nil cut
    obtain ⟨front, later, position, behind, rfl, _, _, same, cut⟩ := cut_plain some cut
    cases same
    intro u member
    rcases List.mem_cons.mp member with rfl | inside
    · simpa [Token.isBlank, isBlankText] using fun c here =>
        blank c (List.mem_append_left _ here)
    · exact ih (fun c here => blank c (List.mem_append_right _ here)) cut u inside

/-- Whether a word can stand between blanks. -/
structure IsWord (word : List Char) : Prop where
  some : word ≠ []
  flat : ∀ c ∈ word, isLineBreak c = false
  first : ∀ c ∈ word.head?, isBlank c = false
  last : ∀ c ∈ word.getLast?, isBlank c = false

/-- Whether tokens are a text of one word, with blanks around it, and blank texts. -/
def CarriesWord (word : List Char) (tokens : List Token) : Prop :=
  ∃ front value source position back, tokens = front ++ ⟨.text value, source, position⟩ :: back ∧
    stripChars value.toList = word ∧ (∀ t ∈ front, t.isBlank) ∧ ∀ t ∈ back, t.isBlank

theorem isBlank_text {cs : List Char} {source : String} {position : Position}
    (blank : ∀ c ∈ cs, isBlank c) :
    (Token.mk (.text (String.ofList cs)) source position).isBlank := by
  simpa [Token.isBlank, isBlankText] using blank

theorem CarriesWord.behind {word : List Char} {t : Token} {tokens : List Token} (blank : t.isBlank)
    (carries : CarriesWord word tokens) : CarriesWord word (t :: tokens) := by
  obtain ⟨front, value, source, position, back, rfl, stripped, before, after⟩ := carries
  refine ⟨t :: front, value, source, position, back, rfl, stripped, fun u member => ?_, after⟩
  rcases List.mem_cons.mp member with rfl | inside
  · exact blank
  · exact before u inside

/-- A word between blanks is carried by its tokens, wherever lines end in the blanks. -/
theorem carriesWord_of_cut {gap word gap' : List Char} {tokens : List Token} (isWord : IsWord word)
    (blank : ∀ c ∈ gap, isBlank c) (blank' : ∀ c ∈ gap', isBlank c)
    (cut : Cut (plainPieces (gap ++ (word ++ gap'))) tokens) : CarriesWord word tokens := by
  induction tokens generalizing gap with
  | nil =>
    obtain ⟨_, _, _, _, _, _, _, absurd, _⟩ := cut_plain (by simp [isWord.some]) cut
    cases absurd
  | cons t rest ih =>
    obtain ⟨front, later, position, behind, same, filled, ends, made, cut'⟩ :=
      cut_plain (by simp [isWord.some]) cut
    cases made
    -- the first token ends in the blanks in front of the word or has the word
    have early (more : List Char) (split : gap = front ++ more)
        (others : later = more ++ (word ++ gap')) : CarriesWord word
          (⟨.text (String.ofList front), String.ofList front, position⟩ :: rest) := by
      subst split others
      have later := ih (fun c inside => blank c (List.mem_append_right _ inside)) cut'
      exact later.behind (isBlank_text fun c inside => blank c (List.mem_append_left _ inside))
    rcases List.append_eq_append_iff.mp same with ⟨more, rfl, inner⟩ | ⟨more, split, others⟩
    · by_cases none : more = []
      · subst none
        exact early [] (by simp) inner.symm
      · have ends : later = [] ∨ EndsLine more := by
          rwa [EndsLine, List.getLast?_append_of_ne_nil _ none] at ends
        obtain ⟨after, rfl, rfl⟩ := exists_of_flat isWord.flat none ends inner
        have behind := blank_of_cut (fun c inside => blank' c (List.mem_append_right _ inside)) cut'
        refine ⟨[], _, _, position, rest, rfl, ?_, by simp, behind⟩
        rw [String.toList_ofList]
        exact stripChars_padded blank (fun c inside => blank' c (List.mem_append_left _ inside))
          isWord.some isWord.first isWord.last
    · exact early more split others

end Tokenizer

/-! Reading -/

namespace Attributes

open Tokenizer

variable {command : Enclosed} {found : List (String × Attribute)} {name : String}

theorem filled_name {name : List Char} (named : isName name) : ∀ c ∈ name, isBlank c = false := by
  obtain ⟨_, _, _, _, all⟩ := isName_iff.mp named
  exact fun c member => isBlank_of_isNameChar (all c member)

theorem isWord_name {name : List Char} (named : isName name) : IsWord name := by
  have filled := filled_name named
  obtain ⟨c, more, rfl, _, all⟩ := isName_iff.mp named
  constructor
  · exact List.cons_ne_nil _ _
  · exact fun d member => isLineBreak_of_isNameChar (all d member)
  · exact fun d head => filled d (List.mem_of_mem_head? head)
  · exact fun d last => filled d (List.mem_of_getLast? last)

theorem isWord_attribute {name : List Char} (named : isName name) : IsWord (name ++ ['=']) := by
  have word := isWord_name named
  constructor
  · simp
  · intro d member
    rcases List.mem_append.mp member with inside | equals
    · exact word.flat d inside
    · rw [List.mem_singleton.mp equals]
      decide
  · intro d head
    rw [List.head?_append_of_ne_nil _ word.some] at head
    exact word.first d head
  · intro d last
    rw [List.getLast?_concat] at last
    cases last
    decide

theorem skipBlank_append {front rest : List Token} (blank : ∀ t ∈ front, t.isBlank) :
    Token.skipBlank (front ++ rest) = Token.skipBlank rest :=
  List.dropWhile_append_of_pos blank

theorem skipBlank_filled {value source : String} {position : Position} {rest : List Token}
    (some : stripChars value.toList ≠ []) :
    Token.skipBlank (⟨.text value, source, position⟩ :: rest) =
      ⟨.text value, source, position⟩ :: rest := by
  refine List.dropWhile_cons_of_neg fun blank => some ?_
  have none : value.toList.dropWhile isBlank = [] :=
    List.dropWhile_eq_nil_iff.mpr (List.all_eq_true.mp blank)
  rw [stripChars, none]
  rfl

theorem skipBlank_quoted {value : Template} {source : String} {position : Position}
    {rest : List Token} :
    Token.skipBlank (⟨.quoted value, source, position⟩ :: rest) =
      ⟨.quoted value, source, position⟩ :: rest :=
  List.dropWhile_cons_of_neg Bool.false_ne_true

/-- A name with its equals sign, then a value: blank tokens in between are skipped. -/
theorem collect_named {value source source' : String} {position position' : Position} {t : Template}
    {back behind : List Token} (named : isName name.toList)
    (written : stripChars value.toList = name.toList ++ ['=']) (blank : ∀ u ∈ back, u.isBlank) :
    collect command found
        (⟨.text value, source, position⟩ :: (back ++ ⟨.quoted t, source', position'⟩ :: behind)) =
      collect command (Assoc.insert name ⟨t, source', position'⟩ found)
        (Token.skipBlank behind) := by
  rw [collect]
  simp only [written, nameIn_written named, ok_bind]
  rw [skipBlank_append blank, skipBlank_quoted]

/-- The tokens of a name with its equals sign and of a value are read as an attribute. -/
theorem collect_carried {source : String} {position : Position} {t : Template}
    {front behind : List Token} (named : isName name.toList)
    (carries : CarriesWord (name.toList ++ ['=']) front) :
    collect command found (Token.skipBlank (front ++ ⟨.quoted t, source, position⟩ :: behind)) =
      collect command (Assoc.insert name ⟨t, source, position⟩ found) (Token.skipBlank behind) := by
  obtain ⟨before, value, source', position', back, rfl, stripped, blank, blank'⟩ := carries
  rw [List.append_assoc, skipBlank_append blank, List.cons_append,
    skipBlank_filled (by simp [stripped]), collect_named named stripped blank']

/-- An attribute as it is written: with blanks in front of it and behind its equals sign. -/
structure Written where
  before : List Char
  name : String
  between : List Char
  value : Template

namespace Written

/-- What is written in front of the value. -/
def front (w : Written) : List Char := w.before ++ ((w.name.toList ++ ['=']) ++ w.between)

def text (w : Written) : List Char :=
  w.front ++ '"' :: ((w.value.toScript .quoted).toList ++ ['"'])

def pieces (w : Written) : List Piece := plainPieces w.front ++ [quotedPiece w.value]

def entry (w : Written) : String × Template := (w.name, w.value)

structure Fits (w : Written) : Prop where
  before : ∀ c ∈ w.before, isBlank c
  named : isName w.name.toList
  between : ∀ c ∈ w.between, isBlank c
  quotable : w.value.Quotable

end Written

/-- The pieces of attributes and of the blanks behind them. -/
def layoutPieces (written : List Written) (last : List Char) : List Piece :=
  written.flatMap Written.pieces ++ plainPieces last

theorem lists_insert {attributes : List (String × Template)} (listed : Lists found attributes)
    (name : String) (a : Attribute) :
    Lists (Assoc.insert name a found) (Assoc.insert name a.value attributes) := by
  rw [Lists, Assoc.insert_map, listed]

/-- Attributes are read one after the other; one whose name has been read before replaces it. -/
theorem collect_of_layout {written : List Written} {last : List Char}
    {attributes : List (String × Template)} {tokens : List Token} (closed : command.stop.isSome)
    (fits : ∀ w ∈ written, w.Fits) (blank : ∀ c ∈ last, isBlank c)
    (listed : Lists found attributes) (cut : Cut (layoutPieces written last) tokens) :
    ∃ entries, collect command found (Token.skipBlank tokens) = .ok entries ∧
      Lists entries (Assoc.insertAll attributes (written.map Written.entry)) := by
  induction written generalizing found attributes tokens with
  | nil =>
    have none : Token.skipBlank tokens = [] :=
      List.dropWhile_eq_nil_iff.mpr (blank_of_cut blank cut)
    exact ⟨found, by rw [none, collect, if_pos closed], listed⟩
  | cons w rest ih =>
    have fit := fits w List.mem_cons_self
    rw [layoutPieces, List.flatMap_cons, List.append_assoc, Written.pieces,
      List.append_assoc] at cut
    obtain ⟨front, position, behind, rfl, first, later⟩ := cut_append_mark cut
    have carries := carriesWord_of_cut (isWord_attribute fit.named) fit.before fit.between first
    rw [collect_carried fit.named carries]
    exact ih (fun v member => fits v (List.mem_cons_of_mem w member))
      (lists_insert listed w.name _) later

theorem behindName_alone {name more : List Char} {source : String} {position : Position}
    {rest : List Token} (named : isName name) (blank : ∀ c ∈ more, isBlank c) :
    behindName (⟨.text (String.ofList (name ++ more)), source, position⟩ :: rest) =
      Token.skipBlank rest := by
  have word := isWord_name named
  have stripped : stripChars (name ++ more) = name :=
    @stripChars_padded [] name more (by simp) blank word.some word.first word.last
  simp [behindName, stripped, firstWord_alone (filled_name named)]

theorem behindName_spaced {name gap word more : List Char} {source : String} {position : Position}
    {rest : List Token} (named : isName name) (apart : gap ≠ []) (blank : ∀ c ∈ gap, isBlank c)
    (isWord : IsWord word) (blank' : ∀ c ∈ more, isBlank c) :
    behindName
        (⟨.text (String.ofList (name ++ (gap ++ (word ++ more)))), source, position⟩ :: rest) =
      ⟨.text (String.ofList word), source, position⟩ :: rest := by
  have wordName := isWord_name named
  have stripped : stripChars (name ++ (gap ++ (word ++ more))) = name ++ (gap ++ word) := by
    have padded := @stripChars_padded [] (name ++ (gap ++ word)) more (by simp) blank'
      (by simp [wordName.some]) (by simpa [wordName.some] using wordName.first)
      (by simpa [isWord.some] using isWord.last)
    simpa using padded
  have spaced := firstWord_spaced wordName.some (filled_name named) blank apart isWord.first
  simp [behindName, stripped, spaced, isWord.some]

/-- Behind the name of a command its first attribute is read like the others, whether or not a line
ends between them. -/
theorem collect_behindName {key : String} {name gap gap' : List Char} {tokens behind : List Token}
    {source : String} {position : Position} {t : Template} (named : isName name)
    (named' : isName key.toList) (apart : gap ≠ []) (blank : ∀ c ∈ gap, isBlank c)
    (blank' : ∀ c ∈ gap', isBlank c)
    (cut : Cut (plainPieces (name ++ (gap ++ ((key.toList ++ ['=']) ++ gap')))) tokens) :
    collect command found (behindName (tokens ++ ⟨.quoted t, source, position⟩ :: behind)) =
      collect command (Assoc.insert key ⟨t, source, position⟩ found) (Token.skipBlank behind) := by
  have isWord := isWord_attribute named'
  have wordName := isWord_name named
  obtain ⟨more, later, place, rest, same, ends, rfl, cut'⟩ :=
    cut_word wordName.some wordName.flat cut
  -- the first token ends in the blanks behind the name or has the first attribute
  have early (others : List Char) (split : gap = more ++ others)
      (behind_eq : later = others ++ ((key.toList ++ ['=']) ++ gap')) :
      let first : Token :=
        ⟨.text (String.ofList (name ++ more)), String.ofList (name ++ more), place⟩
      collect command found
          (behindName (first :: rest ++ ⟨.quoted t, source, position⟩ :: behind)) =
        collect command (Assoc.insert key ⟨t, source, position⟩ found)
          (Token.skipBlank behind) := by
    intro first
    subst split behind_eq
    have carries := carriesWord_of_cut isWord
      (fun c inside => blank c (List.mem_append_right _ inside)) blank' cut'
    rw [List.cons_append,
      behindName_alone named fun c inside => blank c (List.mem_append_left _ inside)]
    exact collect_carried named' carries
  rcases List.append_eq_append_iff.mp same with ⟨others, rfl, inner⟩ | ⟨others, split, behind_eq⟩
  · by_cases none : others = []
    · subst none
      exact early [] (by simp) inner.symm
    · have ends : later = [] ∨ EndsLine others := by
        rwa [EndsLine, ← List.append_assoc, List.getLast?_append_of_ne_nil _ none] at ends
      obtain ⟨after, rfl, rfl⟩ := exists_of_flat isWord.flat none ends inner
      have blanks := blank_of_cut (fun c inside => blank' c (List.mem_append_right _ inside)) cut'
      rw [List.cons_append, behindName_spaced named apart blank isWord fun c inside =>
        blank' c (List.mem_append_left _ inside)]
      refine collect_named named' ?_ blanks
      have bare :=
        @stripChars_padded [] _ [] (by simp) (by simp) isWord.some isWord.first isWord.last
      simpa using bare
  · exact early others split behind_eq

/-- A command has the name that its text starts with, wherever lines end behind it. -/
theorem named_of_cut_plain {more : List Char} {tokens behind : List Token} {start : Position}
    {stop : Option Position} (named : isName name.toList) (spaced : ∀ c ∈ more.head?, isBlank c)
    (cut : Cut (plainPieces (name.toList ++ more)) tokens) :
    ∃ t, (⟨start, tokens ++ behind, stop⟩ : Enclosed).named =
      .ok (name, t, ⟨start, tokens ++ behind, stop⟩) := by
  have word := isWord_name named
  obtain ⟨front, later, position, rest, rfl, _, rfl, _⟩ := cut_word word.some word.flat cut
  refine ⟨_, Enclosed.named_of_text named (fun c head => spaced c ?_) stop⟩
  rw [List.head?_append, Option.mem_def.mp head]
  rfl

/-- The attributes of a command are read whatever its layout. -/
theorem ofCommand_of_layout {written : List Written} {last : List Char} {tokens : List Token}
    {start stop : Position} (named : isName name.toList) (fits : ∀ w ∈ written, w.Fits)
    (apart : ∀ w ∈ written.head?, w.before ≠ []) (blank : ∀ c ∈ last, isBlank c)
    (cut : Cut (plainPieces name.toList ++ layoutPieces written last) tokens) :
    ∃ entries t, (⟨start, tokens, some stop⟩ : Enclosed).named =
        .ok (name, t, ⟨start, tokens, some stop⟩) ∧
      ofCommand ⟨start, tokens, some stop⟩ = .ok ⟨start, entries⟩ ∧
        Lists entries (Assoc.ofList (written.map Written.entry)) := by
  have closed : (Enclosed.mk start tokens (some stop)).stop.isSome := rfl
  cases written with
  | nil =>
    rw [layoutPieces, List.flatMap_nil, List.nil_append, ← plainPieces_append] at cut
    obtain ⟨t, isNamed⟩ := @named_of_cut_plain name last tokens [] start (some stop) named
      (fun c head => blank c (List.mem_of_mem_head? head)) cut
    rw [List.append_nil] at isNamed
    have word := isWord_name named
    obtain ⟨more, later, position, behind, rfl, _, rfl, cut'⟩ := cut_word word.some word.flat cut
    have none : Token.skipBlank behind = [] := List.dropWhile_eq_nil_iff.mpr
      (blank_of_cut (fun c inside => blank c (List.mem_append_right _ inside)) cut')
    refine ⟨[], t, isNamed, ?_, rfl⟩
    rw [ofCommand, behindName_alone named fun c inside => blank c (List.mem_append_left _ inside),
      none, collect]
    rfl
  | cons w rest =>
    have fit := fits w List.mem_cons_self
    have spaced : w.before ≠ [] := apart w rfl
    rw [layoutPieces, List.flatMap_cons, Written.pieces, List.append_assoc, List.append_assoc,
      ← List.append_assoc, ← plainPieces_append] at cut
    obtain ⟨front, position, behind, rfl, first, later⟩ := cut_append_mark cut
    have stops : ∀ c ∈ w.front.head?, isBlank c := by
      intro c head
      rw [Written.front, List.head?_append_of_ne_nil _ spaced] at head
      exact fit.before c (List.mem_of_mem_head? head)
    obtain ⟨t, isNamed⟩ := named_of_cut_plain named stops first
    have one (a : Attribute) : Lists (Assoc.insert w.name a []) [(w.name, a.value)] := rfl
    obtain ⟨entries, read, listed⟩ := collect_of_layout closed
      (fun v member => fits v (List.mem_cons_of_mem w member)) blank (one ⟨w.value, _, position⟩)
      later
    refine ⟨entries, t, isNamed, ?_, listed⟩
    rw [ofCommand, collect_behindName named fit.named spaced fit.before fit.between first, read]
    rfl

/-- Attributes as they are written by default, each behind one blank. -/
def spaced (attributes : List (String × Template)) : List Written :=
  attributes.map fun p => ⟨[' '], p.1, [], p.2⟩

theorem layoutPieces_spaced (attributes : List (String × Template)) :
    layoutPieces (spaced attributes) [] = attributePieces attributes := by
  induction attributes with
  | nil => rfl
  | cons p rest ih =>
    obtain ⟨name, t⟩ := p
    rw [attributePieces, ← ih]
    simp [layoutPieces, spaced, Written.pieces, Written.front]

/-- The attributes of a command are read as they are written. -/
theorem ofCommand_of_cut {attributes : List (String × Template)} {tokens : List Token}
    {start stop : Position} (named : isName name.toList) (sound : Sound attributes)
    (cut : Cut (plainPieces name.toList ++ attributePieces attributes) tokens) :
    ∃ entries, ofCommand ⟨start, tokens, some stop⟩ = .ok ⟨start, entries⟩ ∧
      Lists entries attributes := by
  have fits : ∀ w ∈ spaced attributes, w.Fits := by
    intro w member
    obtain ⟨p, inside, rfl⟩ := List.mem_map.mp member
    have one : ∀ c ∈ [' '], isBlank c := by decide
    exact ⟨one, sound.named p inside, by simp, sound.quotable p inside⟩
  have apart : ∀ w ∈ (spaced attributes).head?, w.before ≠ [] := by
    intro w head
    obtain ⟨p, _, rfl⟩ := List.mem_map.mp (List.mem_of_mem_head? head)
    exact List.cons_ne_nil _ _
  have entries_eq : (spaced attributes).map Written.entry = attributes := by
    simp [spaced, Written.entry, Function.comp_def]
  rw [← layoutPieces_spaced] at cut
  obtain ⟨entries, _, _, read, listed⟩ := ofCommand_of_layout named fits apart (by simp) cut
  rw [entries_eq, Assoc.ofList_of_nodup sound.single] at listed
  exact ⟨entries, read, listed⟩

/-! Whole commands -/

/-- The name and the attributes of the command that some tokens start with, and the tokens behind
it. -/
def ofTokens : List Token → Except ScriptError (String × Attributes × List Token)
  | [] => .error (Cause.openCommand.placedAt .start)
  | t :: rest => do
      let (name, _, command) ← (Enclosed.upTo .commandEnd t.position rest).named
      return (name, ← ofCommand command, Token.behind .commandEnd rest)

theorem ofText_eq (text : String) : ofText text = readText text >>= ofTokens := rfl

/-- A command as it is written. -/
def commandText (name : String) (written : List Written) (last : List Char) : String :=
  "<<" ++ name ++ String.ofList (written.flatMap Written.text ++ last) ++ ">>"

theorem sourceOf_layout (written : List Written) (last : List Char) :
    sourceOf (layoutPieces written last) = written.flatMap Written.text ++ last := by
  rw [layoutPieces, sourceOf_append, sourceOf_plain]
  congr 1
  induction written with
  | nil => rfl
  | cons w rest ih =>
    rw [List.flatMap_cons, List.flatMap_cons, sourceOf_append, ih]
    simp [Written.pieces, Written.text, quotedPiece, Piece.source]

theorem isInner_front {w : Written} (fits : w.Fits) : ∀ c ∈ w.front, isInner c := by
  obtain ⟨_, _, _, _, all⟩ := isName_iff.mp fits.named
  intro c member
  simp only [Written.front, List.mem_append, List.mem_singleton] at member
  rcases member with before | (inside | rfl) | between
  · exact isInner_of_isBlank (fits.before c before)
  · exact isInner_of_isNameChar (all c inside)
  · decide
  · exact isInner_of_isBlank (fits.between c between)

theorem legible_layout {written : List Written} {last : List Char} {inReply : Bool}
    (fits : ∀ w ∈ written, w.Fits) (blank : ∀ c ∈ last, isBlank c) (next : Option Char) :
    Legible ⟨true, inReply⟩ (layoutPieces written last) next ⟨true, inReply⟩ := by
  induction written with
  | nil => exact legible_inner (fun c member => isInner_of_isBlank (blank c member)) next
  | cons w rest ih =>
    have fit := fits w List.mem_cons_self
    rw [layoutPieces, List.flatMap_cons, List.append_assoc, Written.pieces, List.append_assoc]
    apply (legible_inner (isInner_front fit) _).append
    apply Legible.cons (reads_quoted rfl fit.quotable.readable)
    exact ih fun v member => fits v (List.mem_cons_of_mem w member)

theorem sound_layout {written : List Written} {last : List Char} (fits : ∀ w ∈ written, w.Fits) :
    ∀ p ∈ layoutPieces written last, p.Sound := by
  intro p member
  rcases List.mem_append.mp member with inside | behind
  · obtain ⟨w, here, inside⟩ := List.mem_flatMap.mp inside
    rcases List.mem_append.mp inside with front | value
    · exact sound_plain _ p front
    · rw [List.mem_singleton.mp value]
      exact (inside_quoted (fits w here).quotable).sound
  · exact sound_plain _ p behind

theorem plain_no_end {cs : List Char} : ∀ p ∈ plainPieces cs, p.hasKind .commandEnd = false := by
  intro p member
  obtain ⟨c, _, rfl⟩ := List.mem_map.mp member
  rfl

theorem layout_no_end {written : List Written} {last : List Char} :
    ∀ p ∈ layoutPieces written last, p.hasKind .commandEnd = false := by
  intro p member
  rcases List.mem_append.mp member with inside | behind
  · obtain ⟨w, _, inside⟩ := List.mem_flatMap.mp inside
    rcases List.mem_append.mp inside with front | value
    · exact plain_no_end p front
    · rw [List.mem_singleton.mp value]
      rfl
  · exact plain_no_end p behind

/-- The tokens of a command in any layout are read as the command, whatever stands behind them. -/
theorem ofTokens_of_cut {written : List Written} {last : List Char} {tokens : List Token}
    (named : isName name.toList) (fits : ∀ w ∈ written, w.Fits)
    (apart : ∀ w ∈ written.head?, w.before ≠ []) (blank : ∀ c ∈ last, isBlank c)
    (cut : Cut (enclose (plainPieces name.toList ++ layoutPieces written last)) tokens) :
    ∃ a, (∀ behind, ofTokens (tokens ++ behind) = .ok (name, a, behind)) ∧
      Lists a.entries (Assoc.ofList (written.map Written.entry)) := by
  obtain ⟨start, tail, rfl, within⟩ := cut_mark cut
  obtain ⟨inside, stop, none, rfl, here, ends⟩ := cut_append_mark within
  obtain rfl := cut_nil ends
  obtain ⟨entries, t, isNamed, read, listed⟩ :=
    @ofCommand_of_layout name written last inside start stop named fits apart blank here
  have inner : ∀ u ∈ inside, (u.kind != .commandEnd) = true := by
    apply kind_of_cut here (by decide)
    intro p member
    rcases List.mem_append.mp member with front | others
    · exact plain_no_end p front
    · exact layout_no_end p others
  refine ⟨⟨start, entries⟩, fun behind => ?_, listed⟩
  obtain ⟨enclosed, after⟩ := @Enclosed.upTo_closing .commandEnd start inside behind
    ⟨.commandEnd, String.ofList ['>', '>'], stop⟩ inner rfl
  rw [List.cons_append, List.append_assoc, List.singleton_append, ofTokens, enclosed, after,
    isNamed]
  simp only [ok_bind, read]
  rfl

/-- Attributes are read from any layout: blanks, ends of lines among them, may stand in front of
each, where only the first needs one, behind its equals sign and in front of the end of the command.
The names are read in the order in which they first come up, each with the value that is written
last for it, and reading stops right behind the command. -/
theorem read_from_any_layout {name : String} {written : List Written} {last : List Char}
    (named : isName name.toList) (fits : ∀ w ∈ written, w.Fits)
    (apart : ∀ w ∈ written.head?, w.before ≠ []) (blank : ∀ c ∈ last, isBlank c) :
    ∃ tokens a, readText (commandText name written last) = .ok tokens ∧
      (∀ behind, ofTokens (tokens ++ behind) = .ok (name, a, behind)) ∧
      ofText (commandText name written last) = .ok (name, a, []) ∧
      a.entries.map (·.1) = (written.map (·.name)).eraseDups ∧
      ∀ key, (a.get? key).map (·.value) = (written.reverse.find? (·.name = key)).map (·.value) := by
  have text : commandText name written last = String.ofList
      (sourceOf (enclose (plainPieces name.toList ++ layoutPieces written last))) := by
    apply String.toList_inj.mp
    simp [commandText, enclose, sourceOf_layout, Piece.source]
  have sound : ∀ p ∈ enclose (plainPieces name.toList ++ layoutPieces written last), p.Sound := by
    apply sound_enclosed
    intro p member
    rcases List.mem_append.mp member with front | others
    · exact sound_plain _ p front
    · exact sound_layout fits p others
  have letters : ∀ c ∈ name.toList, isInner c := by
    obtain ⟨_, _, _, _, all⟩ := isName_iff.mp named
    exact fun c member => isInner_of_isNameChar (all c member)
  have legible : Legible .initial
      (enclose (plainPieces name.toList ++ layoutPieces written last)) none .initial :=
    legible_enclosed ((legible_inner letters _).append (legible_layout fits blank _)) none
  obtain ⟨tokens, read, cut⟩ := readText_of_legible legible (fun p member => (sound p member).whole)
    (fun p member => (sound p member).some) fun p member => (sound p member).filled
  obtain ⟨a, command, listed⟩ := ofTokens_of_cut named fits apart blank cut
  refine ⟨tokens, a, text ▸ read, command, ?_, ?_, fun key => ?_⟩
  · have alone := command []
    rw [List.append_nil] at alone
    rw [ofText_eq, text, read, ok_bind, alone]
  · have names := congrArg Assoc.keys listed
    rw [Assoc.keys_ofList] at names
    simpa [Assoc.keys, Written.entry, Function.comp_def] using names
  · have value := congrArg (Assoc.get? key) listed
    rw [Assoc.get?_map, Assoc.get?_ofList, ← List.map_reverse, List.find?_map,
      Option.map_map] at value
    exact value

/-- A command over four lines in which one name is written twice. -/
theorem read_over_four_lines :
    let written : List Written := [⟨['\n', '\t'], "type", [], .ofText "image"⟩,
      ⟨[' '], "value", ['\r', '\n', ' '], .single "face"⟩, ⟨[], "type", ['\n'], .ofText "video"⟩]
    (∀ w ∈ written, w.Fits) ∧ ∃ a,
      ofText "<<action\n\ttype=\"image\" value=\r\n \"$face\"type=\n\"video\" >>" =
        .ok ("action", a, []) ∧
      a.entries.map (·.1) = ["type", "value"] ∧
      (a.get? "type").map (·.value) = some (.ofText "video") ∧
      (a.get? "value").map (·.value) = some (.single "face") := by
  intro written
  have plain (s : String) (flat : ∀ c ∈ s.toList, isLineBreak c = false) :
      (Template.ofText s).Quotable := Template.quotable_ofText flat
  have fits : ∀ w ∈ written, w.Fits := by
    simp only [written, List.mem_cons, List.not_mem_nil, or_false, forall_eq_or_imp, forall_eq]
    refine ⟨⟨by decide, by decide, by decide, plain _ (by decide)⟩,
      ⟨by decide, by decide, by decide, Template.quotable_single (by decide)⟩,
      ⟨by decide, by decide, by decide, plain _ (by decide)⟩⟩
  have text : commandText "action" written [' '] =
      "<<action\n\ttype=\"image\" value=\r\n \"$face\"type=\n\"video\" >>" := by decide +kernel
  obtain ⟨_, a, _, _, read, names, values⟩ :=
    @read_from_any_layout "action" written [' '] (by decide) fits (by simp [written]) (by decide)
  rw [text] at read
  exact ⟨fits, a, read, names, values "type", values "value"⟩

end Attributes
end Parley
