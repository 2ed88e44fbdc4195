import Parley.Proofs.Body.Acceptance
import Parley.Proofs.Body.Embedded

/-!
What is written of an expression in a command, whatever its literals. It goes on to its end, or up to
a text in double quotes in which a line ends; there the command is refused.
-/
namespace Parley

open Numeral Terminal Tokenizer

/-- How a text goes on in a command in front of a character: with stretches that stand for themselves
and with closed texts in double quotes, in which lines may end. -/
inductive Inlaid (next : Option Char) : List Char → Prop
  | nil : Inlaid next []
  | stretch {piece rest : List Char} (renders : Renders piece (rest.head?.or next))
      (later : Inlaid next rest) : Inlaid next (piece ++ rest)
  | quoted {inner rest : List Char} (closed : quotedLength? '"' inner = some inner.length)
      (feedless : '\n' ∉ inner) (later : Inlaid next rest) : Inlaid next ('"' :: (inner ++ rest))

section Inlaid

variable {next : Option Char} {cs ds : List Char}

theorem Inlaid.append (first : Inlaid (ds.head?.or next) cs) (second : Inlaid next ds) :
    Inlaid next (cs ++ ds) := by
  induction first with
  | nil => exact second
  | @stretch piece rest renders later ih =>
    rw [List.append_assoc]
    refine .stretch ?_ ih
    rwa [List.head?_append, Option.or_assoc]
  | quoted closed feedless later ih =>
    rw [List.cons_append, List.append_assoc]
    exact .quoted closed feedless ih

/-- Whether a text in double quotes with the end of a line in it is the first thing that cannot stand
in a command. -/
def Interrupted (cs : List Char) : Prop :=
  ∃ front inner rest, cs = front ++ '"' :: (inner ++ rest) ∧ Renders front (some '"') ∧
    quotedLength? '"' inner = some inner.length ∧ '\n' ∉ inner ∧ ∃ b ∈ inner, isLineBreak b

theorem Inlaid.renders_or_interrupted (inlaid : Inlaid next cs) : Renders cs next ∨ Interrupted cs := by
  induction inlaid with
  | nil => exact .inl ⟨[], rfl, by simp, fun _ => .nil⟩
  | @stretch piece rest renders later ih =>
    rcases ih with whole | ⟨front, inner, behind, rfl, reached, halts⟩
    · exact .inl (renders.append whole)
    · refine .inr ⟨piece ++ front, inner, behind, by simp, Renders.append ?_ reached, halts⟩
      rw [List.head?_append, Option.or_assoc] at renders
      exact renders
  | @quoted inner rest closed feedless later ih =>
    by_cases flat : ∀ c ∈ inner, isLineBreak c = false
    · rcases ih with whole | ⟨front, inner', behind, rfl, reached, halts⟩
      · exact .inl ((renders_quoted closed flat _).append whole)
      · refine .inr ⟨'"' :: (inner ++ front), inner', behind, by simp, ?_, halts⟩
        exact (renders_quoted closed flat _).append reached
    · push Not at flat
      obtain ⟨b, member, ends⟩ := flat
      refine .inr ⟨[], inner, rest, rfl, ⟨[], rfl, by simp, fun _ => .nil⟩, closed, feedless, b,
        member, ?_⟩
      simpa using ends

/-- Whether a text goes on in a command in front of whatever a name does not go on with. -/
def Tidy (cs : List Char) : Prop := ∀ next, (∀ c ∈ next, isNameChar c = false) → Inlaid next cs

theorem tidy_of_renders (renders : ∀ next, Renders cs next) : Tidy cs := by
  intro next _
  have alone : Inlaid next (cs ++ []) := .stretch (renders _) .nil
  rwa [List.append_nil] at alone

theorem tidy_inner (inner : ∀ c ∈ cs, isInner c) (flat : ∀ c ∈ cs, isLineBreak c = false) :
    Tidy cs := tidy_of_renders fun next => renders_inner inner flat next

theorem Tidy.append (first : Tidy cs) (second : Tidy ds)
    (apart : ∀ c ∈ ds.head?, isNameChar c = false) : Tidy (cs ++ ds) := by
  intro next clear
  refine (first _ ?_).append (second next clear)
  cases ds with
  | nil => exact clear
  | cons d rest => exact apart

/-- Behind a stretch of marks anything can follow. -/
theorem Tidy.behind {front : List Char} (second : Tidy cs) (inner : ∀ c ∈ front, isInner c)
    (flat : ∀ c ∈ front, isLineBreak c = false) : Tidy (front ++ cs) :=
  fun next clear => .stretch (renders_inner inner flat _) (second next clear)

theorem Tidy.between {front back : List Char} (inside : Tidy cs)
    (inner : ∀ c ∈ front ++ back, isInner c) (flat : ∀ c ∈ front ++ back, isLineBreak c = false)
    (apart : ∀ c ∈ back.head?, isNameChar c = false) : Tidy (front ++ (cs ++ back)) := by
  have last : Tidy back := tidy_inner (fun c member => inner c (List.mem_append_right _ member))
    fun c member => flat c (List.mem_append_right _ member)
  exact (inside.append last apart).behind (fun c member => inner c (List.mem_append_left _ member))
    fun c member => flat c (List.mem_append_left _ member)

end Inlaid

/-! Expressions -/

theorem tidy_variable {name : String} (named : isName name.toList) :
    Tidy ('$' :: name.toList) := by
  intro next clear
  have alone : Inlaid next ('$' :: name.toList ++ []) :=
    .stretch (renders_variable named (by simpa using clear)) .nil
  rwa [List.append_nil] at alone

theorem tidy_name {name : String} (named : isName name.toList) : Tidy name.toList := by
  obtain ⟨_, _, _, _, all⟩ := isName_iff.mp named
  exact tidy_of_renders fun next => renders_name all next

theorem tidy_float (x : Binary64) : Tidy x.text.toList := by
  rw [Binary64.text, String.toList_ofList]
  cases x with
  | nan => exact tidy_inner (by decide) (by decide)
  | infinite negative => cases negative <;> exact tidy_inner (by decide) (by decide)
  | finite negative significand power h =>
    obtain ⟨l, _, chars, _⟩ := Binary64.exists_layout h
    have digits : Tidy (Binary64.finite false significand power h).chars := by
      rw [chars]
      exact tidy_of_renders fun next => renders_digits (fun c member => Layout.mem_chars member) next
    have sign : ∀ c ∈ signChars negative, isInner c ∧ isLineBreak c = false := by
      cases negative <;> decide
    exact digits.behind (fun c member => (sign c member).1) fun c member => (sign c member).2

theorem feedless_quoteChar (c : Char) : '\n' ∉ quoteChar c := by
  rcases quoteChar_cases c with ⟨d, among, same, _⟩ | ⟨same, _, _, feed⟩
  · rw [same]
    simp only [List.mem_cons, List.not_mem_nil, or_false] at among
    rcases among with rfl | rfl | rfl | rfl <;> decide
  · rw [same, List.mem_singleton]
    exact Ne.symm feed

theorem tidy_text (s : String) : Tidy (quoteText s).toList := by
  intro next _
  have closed : quotedLength? '"' (s.toList.flatMap quoteChar ++ ['"']) =
      some (s.toList.flatMap quoteChar ++ ['"']).length := by
    rw [quotedLength_quoted, List.length_append, List.length_singleton]
  have feedless : '\n' ∉ s.toList.flatMap quoteChar ++ ['"'] := by
    simp only [List.mem_append, List.mem_flatMap, List.mem_singleton, not_or, not_exists, not_and]
    exact ⟨fun c _ => feedless_quoteChar c, by decide⟩
  have alone : Inlaid next ('"' :: (s.toList.flatMap quoteChar ++ ['"'] ++ [])) :=
    .quoted closed feedless .nil
  rw [List.append_nil] at alone
  rwa [quoteText, String.toList_ofList, List.append_assoc]

theorem tidy_literal (l : Literal) : Tidy l.toText.toList := by
  cases l with
  | null => exact tidy_inner (by decide) (by decide)
  | bool b => cases b <;> exact tidy_inner (by decide) (by decide)
  | int n =>
    rw [Literal.toText, natText, String.toList_ofList]
    exact tidy_of_renders fun next => renders_digits (fun c member => .inl (natChars_plain n c member)) next
  | float x => exact tidy_float x
  | text s => exact tidy_text s

namespace Expr

theorem tidy_wrap {e : Expr} (tidy : Tidy e.toText.toList) (demanded : Nat) :
    Tidy (wrap demanded e e.toText).toList := by
  unfold wrap
  split
  · have inside : Tidy (['('] ++ (e.toText.toList ++ [')'])) :=
      tidy.between (by decide) (by decide) (by rintro c ⟨⟩; rfl)
    simpa using inside
  · exact tidy

theorem tidy_binary {op : BinaryOp} {left right : List Char} (first : Tidy left)
    (second : Tidy right) : Tidy (left ++ ' ' :: (op.symbol.toList ++ ' ' :: right)) := by
  have behind : Tidy ([' '] ++ right) := second.behind (by decide) (by decide)
  have sign : Tidy (op.symbol.toList ++ ' ' :: right) := by
    intro next clear
    refine .stretch ?_ (behind next clear)
    have apart : (operator op).Apart (' ' :: right) := apart_blank op _
    exact renders_operator apart
  have whole : Tidy ([' '] ++ (op.symbol.toList ++ ' ' :: right)) :=
    sign.behind (by decide) (by decide)
  exact first.append whole (by rintro c ⟨⟩; rfl)

/-- What is written on both sides of a comma or a colon and of the blank behind it. -/
theorem tidy_separated {c : Char} {left right : List Char} (sign : c = ',' ∨ c = ':')
    (first : Tidy left) (second : Tidy right) : Tidy (left ++ c :: ' ' :: right) := by
  have marks : (∀ d ∈ [c, ' '], isInner d) ∧ (∀ d ∈ [c, ' '], isLineBreak d = false) ∧
      isNameChar c = false := by
    rcases sign with rfl | rfl <;> decide
  have behind : Tidy ([c, ' '] ++ right) := second.behind marks.1 marks.2.1
  exact first.append behind (by rintro d ⟨⟩; exact marks.2.2)

theorem tidy_index {target position : List Char} (first : Tidy target) (second : Tidy position) :
    Tidy (target ++ '[' :: (position ++ [']'])) := by
  have inside : Tidy (['['] ++ (position ++ [']'])) :=
    second.between (by decide) (by decide) (by rintro c ⟨⟩; rfl)
  exact first.append inside (by rintro c ⟨⟩; rfl)

theorem tidy_member {target : List Char} {name : String} (named : isName name.toList)
    (first : Tidy target) : Tidy (target ++ '.' :: name.toList) := by
  have behind : Tidy (['.'] ++ name.toList) := (tidy_name named).behind (by decide) (by decide)
  exact first.append behind (by rintro c ⟨⟩; rfl)

theorem tidy_assign {name : String} {text : List Char} (named : isName name.toList)
    (value : Tidy text) : Tidy ('$' :: (name.toList ++ ' ' :: '=' :: ' ' :: text)) := by
  have behind : Tidy ([' ', '=', ' '] ++ text) := value.behind (by decide) (by decide)
  exact (tidy_variable named).append behind (by rintro c ⟨⟩; rfl)

theorem tidy_brackets {front back : Char} {text : List Char}
    (brackets : front = '[' ∧ back = ']' ∨ front = '\x7b' ∧ back = '\x7d') (inside : Tidy text) :
    Tidy (front :: (text ++ [back])) := by
  have whole : Tidy ([front] ++ (text ++ [back])) := by
    rcases brackets with ⟨rfl, rfl⟩ | ⟨rfl, rfl⟩
    · exact inside.between (by decide) (by decide) (by rintro c ⟨⟩; rfl)
    · exact inside.between (by decide) (by decide) (by rintro c ⟨⟩; rfl)
  exact whole

/-- Whether a terminal that is a name is one that can be written. -/
def NameFits : Terminal → Prop
  | .var word | .name word => isName word.toList
  | _ => True

/-- What is derived from terminals goes on in a command. -/
theorem tidy_of_derives {ts : List Terminal} {phrase : Phrase} (derives : Derives ts phrase)
    (fits : ∀ t ∈ ts, NameFits t) : Tidy phrase.text.toList := by
  induction derives with
  | @assign name ts e _ ih =>
    have named : isName name.toList := fits (.var name) List.mem_cons_self
    have value := ih fun t member => fits t (by simp [member])
    simpa [Phrase.text, toText] using tidy_assign named value
  | @binary op left right a b _ _ first second =>
    have left := first fun t member => fits t (by simp [member])
    have right := second fun t member => fits t (by simp [member])
    have whole := @tidy_binary op _ _ (tidy_wrap left (leftLevel op)) (tidy_wrap right (op.level + 1))
    simpa [Phrase.text, toText] using whole
  | @not ts e _ ih =>
    have operand := ih fun t member => fits t (by simp [member])
    have whole : Tidy (['!'] ++ (wrap 7 e e.toText).toList) :=
      (tidy_wrap operand 7).behind (by decide) (by decide)
    simpa [Phrase.text, toText, UnaryOp.symbol] using whole
  | @neg ts e _ ih =>
    have operand := ih fun t member => fits t (by simp [member])
    have whole : Tidy (['-'] ++ (wrap 7 e e.toText).toList) :=
      (tidy_wrap operand 7).behind (by decide) (by decide)
    simpa [Phrase.text, toText, UnaryOp.symbol] using whole
  | @index _ _ a b _ _ first second =>
    have target := first fun t member => fits t (by simp [member])
    have position := second fun t member => fits t (by simp [member])
    simpa [Phrase.text, toText] using tidy_index (tidy_wrap target 8) position
  | @member _ a name _ ih =>
    have named : isName name.toList := fits (.name name) (by simp)
    have target := ih fun t member => fits t (by simp [member])
    simpa [Phrase.text, toText] using tidy_member named (tidy_wrap target 8)
  | @var name =>
    have named : isName name.toList := fits (.var name) (List.mem_singleton_self _)
    simpa [Phrase.text, toText] using tidy_variable named
  | @literal l => simpa [Phrase.text, toText] using tidy_literal l
  | emptyList => exact tidy_inner (by decide) (by decide)
  | @list _ items _ ih =>
    have inside := ih fun t member => fits t (by simp [member])
    simpa [Phrase.text, toText] using tidy_brackets (.inl ⟨rfl, rfl⟩) inside
  | emptyMap => exact tidy_inner (by decide) (by decide)
  | @map _ entries _ ih =>
    have inside := ih fun t member => fits t (by simp [member])
    simpa [Phrase.text, toText] using tidy_brackets (.inr ⟨rfl, rfl⟩) inside
  | round _ ih => exact ih fun t member => fits t (by simp [member])
  | tighter _ _ ih => exact ih fits
  | oneItem _ ih => exact ih fits
  | @moreItems _ _ e others _ derives first second =>
    have left := first fun t member => fits t (by simp [member])
    have right := second fun t member => fits t (by simp [member])
    have some : others ≠ [] := fun none => (ne_nil_of_derives derives).1 (none ▸ rfl)
    have whole := tidy_separated (.inl rfl) left right
    rw [Phrase.text, text_items_cons some]
    exact whole
  | entry _ _ first second =>
    have left := first fun t member => fits t (by simp [member])
    have right := second fun t member => fits t (by simp [member])
    simpa [Phrase.text, entryText] using tidy_separated (.inr rfl) left right
  | oneEntry _ ih => exact ih fits
  | @moreEntries _ _ p others _ derives first second =>
    have left := first fun t member => fits t (by simp [member])
    have right := second fun t member => fits t (by simp [member])
    have some : others ≠ [] := fun none => (ne_nil_of_derives derives).2 (none ▸ rfl)
    have whole := tidy_separated (.inl rfl) left right
    rw [Phrase.text, text_entries_cons some]
    exact whole

/-- What is written of an expression that has been read goes on in a command. -/
theorem tidy_of_parsed {e : Expr} (parsed : e.Parsed) : Tidy e.toText.toList := by
  obtain ⟨cs, accepted⟩ := parsed
  obtain ⟨_, ts, cut, taken, none⟩ := parseChars_eq_ok_iff.mp accepted
  have derives := derives_of_ofLexemes taken
  have short := short_of_longNumber (chain_of_derives derives) none
  refine tidy_of_derives derives fun t member => ?_
  obtain ⟨l, here, rfl⟩ := List.mem_map.mp member
  have scanned : l ∈ (Lexemes.ofChars .operand .start cs).lexemes := by
    rw [cut]
    exact here
  have fit (other : ∀ x, l.terminal ≠ .literal (.float x)) : l.terminal.Fit :=
    fit_of_mem scanned (fun x same => (other x same).elim) (short l here)
  unfold NameFits
  split
  · rename_i word same
    have fit := fit (by simp [same])
    rwa [same] at fit
  · rename_i word same
    have fit := fit (by simp [same])
    rwa [same] at fit
  · trivial

end Expr

/-! Commands that are refused -/

theorem Tokenizer.Renders.flat {cs : List Char} {next : Option Char} (renders : Renders cs next) :
    ∀ c ∈ cs, isLineBreak c = false := by
  obtain ⟨ps, rfl, inside, _⟩ := renders
  intro c member
  obtain ⟨p, here, written⟩ := List.mem_flatMap.mp member
  exact (inside p here).flat c written

/-- A text in double quotes does not end in front of where it is closed. -/
theorem quotedLength_front {front behind : List Char} (more : behind ≠ [])
    (closed : quotedLength? '"' (front ++ behind) = some (front ++ behind).length) :
    quotedLength? '"' front = none := by
  rw [Option.eq_none_iff_forall_ne_some]
  intro n found
  obtain ⟨inner, rest, rfl, rfl, _, ends⟩ := exists_quoted found
  rw [List.append_assoc, ends] at closed
  have lengths := Option.some.inj closed
  have positive := List.length_pos_iff.mpr more
  simp only [List.length_append] at lengths
  omega

/-- A text in double quotes in which a line ends goes on behind the end of its first line. -/
theorem exists_firstLine {inner : List Char} {b : Char}
    (closed : quotedLength? '"' inner = some inner.length) (member : b ∈ inner)
    (ends : isLineBreak b) : ∃ line c rest, inner = line ++ c :: rest ∧ isLineBreak c ∧
      (∀ d ∈ line, isLineBreak d = false) ∧ rest ≠ [] := by
  have some : inner.dropWhile (fun d => !isLineBreak d) ≠ [] := by
    intro none
    have kept := List.dropWhile_eq_nil_iff.mp none b member
    rw [ends] at kept
    cases kept
  obtain ⟨c, rest, behind⟩ := List.exists_cons_of_ne_nil some
  have first : isLineBreak c := by
    have head := List.head_dropWhile_not (fun d => !isLineBreak d) some
    simpa [behind] using head
  have whole := List.takeWhile_append_dropWhile (p := fun d => !isLineBreak d) (l := inner)
  rw [behind] at whole
  refine ⟨_, c, rest, whole.symm, first, fun d inside => ?_, ?_⟩
  · simpa using List.mem_takeWhile_imp inside
  · rintro rfl
    obtain ⟨front, behind, split, length, last, _⟩ := exists_quoted closed
    have same : front = inner := List.IsPrefix.eq_of_length ⟨behind, split.symm⟩ length.symm
    rw [same, ← whole, List.getLast?_concat] at last
    cases last
    cases first

/-- A text is refused for what is wrong in its first line. -/
theorem Tokenizer.readText_of_refused {line rest : List Char} {b : Char} {error : ScriptError}
    (some : line ≠ []) (flat : ∀ c ∈ line, isLineBreak c = false) (ends : isLineBreak b)
    (single : rest.head? ≠ .some '\n')
    (refused : (pieces .initial ⟨1, 1⟩ (line ++ [b])).1 = .error error) :
    readText (String.ofList (line ++ b :: rest)) = .error error := by
  rw [readText, String.toList_ofList, lines_append some flat, lines_break ends (.inr single),
    prepend, readLines, readEach, readLine]
  generalize pieces .initial ⟨1, 1⟩ (line ++ [b]) = read at refused
  obtain ⟨found, final⟩ := read
  dsimp only at refused
  subst refused
  rfl

/-- A text in double quotes is open at the end of its first line. -/
theorem Tokenizer.quotedParts_of_firstLine {line more : List Char} {c : Char}
    (closed : quotedLength? '"' (line ++ c :: more) = some (line ++ c :: more).length)
    (feedless : '\n' ∉ line ++ c :: more) (goesOn : more ≠ []) :
    quotedParts? (line ++ [c]) = none := by
  have whole : line ++ c :: more = (line ++ [c]) ++ more := by simp
  rw [whole] at closed feedless
  have flat : '\n' ∉ line ++ [c] ++ [] := by
    intro feed
    rw [List.append_nil] at feed
    exact feedless (List.mem_append_left _ feed)
  have none := quotedParts_of_unclosed (quotedLength_front goesOn closed) flat List.not_mem_nil
  rwa [List.append_nil] at none

/-- A line with a command is refused where a text in double quotes is left open. -/
theorem Tokenizer.pieces_of_openQuote {keyword : String} (named : isName keyword.toList)
    {front rest : List Char} (renders : Renders front (some '"'))
    (unclosed : quotedParts? rest = none) : ∃ error,
      (pieces .initial ⟨1, 1⟩
        ('<' :: '<' :: (keyword.toList ++ ' ' :: front ++ '"' :: rest))).1 = .error error := by
  obtain ⟨ps, source, _, inside, legible⟩ := exists_typedPieces named renders
  have opened : Legible .initial (.mark .commandStart ['<', '<'] ::
      (plainPieces keyword.toList ++ ps)) (some '"') ⟨true, false⟩ :=
    .cons (reads_commandStart _) (legible false)
  have halts : step ⟨true, false⟩ '"' rest = .defect .openQuote := by simp [step, unclosed]
  have same : '<' :: '<' :: (keyword.toList ++ ' ' :: front ++ '"' :: rest) =
      sourceOf (.mark .commandStart ['<', '<'] :: (plainPieces keyword.toList ++ ps)) ++
        '"' :: rest := by
    rw [sourceOf_cons, source]
    rfl
  rw [same, pieces_append opened, pieces, halts]
  exact ⟨_, rfl⟩

/-- A command is refused where a line ends in a text in double quotes. -/
theorem readText_of_interrupted {keyword : String} (named : isName keyword.toList)
    {typed : List Char} (interrupted : Interrupted typed) (after : List Char) : ∃ error,
      readText (String.ofList ('<' :: '<' :: (keyword.toList ++ ' ' :: typed ++ after))) =
        .error error := by
  obtain ⟨front, inner, rest, rfl, renders, closed, feedless, b, member, ends⟩ := interrupted
  obtain ⟨line, c, more, rfl, ends, flat, goesOn⟩ := exists_firstLine closed member ends
  obtain ⟨_, _, _, _, letters⟩ := isName_iff.mp named
  obtain ⟨error, refused⟩ := pieces_of_openQuote named renders
    (quotedParts_of_firstLine closed feedless goesOn)
  have same : '<' :: '<' ::
      (keyword.toList ++ ' ' :: (front ++ '"' :: (line ++ c :: more ++ rest)) ++ after) =
        '<' :: '<' :: (keyword.toList ++ ' ' :: front ++ '"' :: line) ++
          c :: (more ++ rest ++ after) := by
    simp
  refine ⟨error, ?_⟩
  rw [same]
  refine readText_of_refused (List.cons_ne_nil _ _) ?_ ends (fun feed => feedless ?_) ?_
  · simp only [List.forall_mem_cons, List.forall_mem_append]
    exact ⟨rfl, rfl, ⟨fun d member => isLineBreak_of_isNameChar (letters d member), rfl,
      renders.flat⟩, rfl, flat⟩
  · obtain ⟨d, others, rfl⟩ := List.exists_cons_of_ne_nil goesOn
    cases feed
    simp
  · simpa using refused

end Parley
