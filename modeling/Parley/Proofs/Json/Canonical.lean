import Mathlib.Data.List.Nodup
import Parley.Proofs.Json.Strings
import Parley.Proofs.Json.Values
import Parley.Proofs.Number.Signed

/-!
The text of a document in one line. No two documents without halves of surrogate pairs have one
text, and where one text starts with the other they are the same: every part of a document ends at a
sign that it cannot go on with.
-/
namespace Parley

open Numeral

theorem Numeral.Layout.mark_mem {l : Layout} (marked : l.Marked) :
    '.' ∈ l.chars ∨ 'e' ∈ l.chars := by
  rcases marked with part | exponent
  · exact .inl (by simp [Layout.chars, Layout.partChars, part])
  · obtain ⟨x, found⟩ := Option.isSome_iff_exists.mp exponent
    exact .inr (by simp [Layout.chars, Layout.exponentChars, found])

namespace Json

/-! Words -/

/-- The sign that the text of a document starts with, unless the document is written as one word. -/
def opening? : Json → Option Char
  | .text _ => some '"'
  | .list _ => some '['
  | .map _ => some '\x7b'
  | _ => none

def isWord (j : Json) : Bool := j.opening?.isNone

def constants : List Json :=
  [.null, .bool true, .bool false, .float .nan, .float (.infinite false), .float (.infinite true)]

theorem word_cases {j : Json} (word : j.isWord) :
    j ∈ constants ∨ (∃ n, j = .int n) ∨ ∃ x : Binary64, x.isFinite ∧ j = .float x := by
  cases j with
  | null => exact .inl (by simp [constants])
  | bool b => cases b <;> exact .inl (by simp [constants])
  | int n => exact .inr (.inl ⟨n, rfl⟩)
  | float x =>
    cases x with
    | nan => exact .inl (by simp [constants])
    | infinite negative => cases negative <;> exact .inl (by simp [constants])
    | finite negative significand power h => exact .inr (.inr ⟨_, rfl, rfl⟩)
  | text s => cases word
  | list items => cases word
  | map entries => cases word

/-- Whether a text starts as a number with or without a sign. -/
def startsNumeral : List Char → Bool
  | '-' :: c :: _ => isPlainDigit c
  | c :: _ => isPlainDigit c
  | [] => false

theorem startsNumeral_signed (negative : Bool) {c : Char} (digit : isPlainDigit c)
    (rest : List Char) : startsNumeral (signChars negative ++ c :: rest) := by
  cases negative with
  | true => exact digit
  | false =>
    have other : c ≠ '-' := by
      rintro rfl
      cases digit
    rw [signChars, if_neg Bool.false_ne_true, List.nil_append,
      startsNumeral.eq_2 _ _ (by simp [other])]
    exact digit

theorem startsNumeral_int (n : Int) : startsNumeral (intChars n) := by
  obtain ⟨c, rest, whole⟩ := List.exists_cons_of_ne_nil (natChars_ne_nil n.natAbs)
  have digit := natChars_plain n.natAbs c (by simp [whole])
  unfold intChars
  split
  · rw [whole]
    exact startsNumeral_signed true digit rest
  · rw [whole]
    exact startsNumeral_signed false digit rest

theorem startsNumeral_float {x : Binary64} (finite : x.isFinite) : startsNumeral x.chars := by
  obtain ⟨l, _, _, chars, _⟩ := Binary64.exists_numeral finite
  obtain ⟨c, rest, whole, digit⟩ := l.head_chars
  rw [chars, whole]
  exact startsNumeral_signed _ digit rest

theorem startsNumeral_constants {j : Json} (constant : j ∈ constants) :
    startsNumeral (scalarText .ascii j).toList = false := by
  have all : ∀ text ∈ constants.map (scalarText .ascii), startsNumeral text.toList = false := by
    decide
  exact all _ (List.mem_map_of_mem constant)

theorem constant_inj {a b : Json} (first : a ∈ constants) (second : b ∈ constants)
    (same : scalarText .ascii a = scalarText .ascii b) : a = b := by
  have distinct : (constants.map (scalarText .ascii)).Nodup := by decide
  exact List.inj_on_of_nodup_map distinct first second same

theorem floatText_of_finite {x : Binary64} (finite : x.isFinite) : floatText x = x.text := by
  cases x with
  | nan => cases finite
  | infinite negative => cases finite
  | finite negative significand power h => rfl

/-- The characters of a number: those of a binary number have a point or an exponent. -/
theorem int_ne_float (n : Int) {x : Binary64} (finite : x.isFinite) : intChars n ≠ x.chars := by
  obtain ⟨l, marked, _, chars, _⟩ := Binary64.exists_numeral finite
  have plain : ∀ c ∈ intChars n, c = '-' ∨ isPlainDigit c := by
    intro c member
    unfold intChars at member
    split at member
    · rcases List.mem_cons.mp member with rfl | digit
      · exact .inl rfl
      · exact .inr (natChars_plain _ c digit)
    · exact .inr (natChars_plain _ c member)
  intro same
  rw [chars] at same
  rcases Layout.mark_mem marked with point | exponent
  · rcases plain '.' (by rw [same]; exact List.mem_append_right _ point) with wrong | wrong
    · cases wrong
    · cases wrong
  · rcases plain 'e' (by rw [same]; exact List.mem_append_right _ exponent) with wrong | wrong
    · cases wrong
    · cases wrong

theorem word_inj {a b : Json} (word : a.isWord) (word' : b.isWord)
    (same : scalarText .ascii a = scalarText .ascii b) : a = b := by
  have chars := congrArg String.toList same
  have apart {c d : List Char} (same : c = d) (starts : startsNumeral c)
      (other : startsNumeral d = false) : False := by
    rw [same, other] at starts
    cases starts
  have int (n : Int) : (scalarText .ascii (.int n)).toList = intChars n := String.toList_ofList
  have float {x : Binary64} (finite : x.isFinite) :
      (scalarText .ascii (.float x)).toList = x.chars := by
    rw [scalarText, floatText_of_finite finite, Binary64.text, String.toList_ofList]
  rcases word_cases word with first | ⟨m, rfl⟩ | ⟨x, finite, rfl⟩
  · rcases word_cases word' with second | ⟨n, rfl⟩ | ⟨y, finite', rfl⟩
    · exact constant_inj first second same
    · rw [int] at chars
      exact (apart chars.symm (startsNumeral_int n) (startsNumeral_constants first)).elim
    · rw [float finite'] at chars
      exact (apart chars.symm (startsNumeral_float finite') (startsNumeral_constants first)).elim
  · rw [int] at chars
    rcases word_cases word' with second | ⟨n, rfl⟩ | ⟨y, finite', rfl⟩
    · exact (apart chars (startsNumeral_int m) (startsNumeral_constants second)).elim
    · rw [int] at chars
      rw [intChars_inj chars]
    · rw [float finite'] at chars
      exact absurd chars (int_ne_float m finite')
  · rw [float finite] at chars
    rcases word_cases word' with second | ⟨n, rfl⟩ | ⟨y, finite', rfl⟩
    · exact (apart chars (startsNumeral_float finite) (startsNumeral_constants second)).elim
    · rw [int] at chars
      exact absurd chars.symm (int_ne_float n finite)
    · rw [float finite'] at chars
      rw [Binary64.chars_inj finite finite' chars]

/-- Whether a character neither starts a text, a list or a map nor stands behind a part. -/
def isWordChar (c : Char) : Bool :=
  !(['"', '[', ']', '\x7b', '\x7d', ','].contains c)

theorem isWordChar_of_isMark {c : Char} (mark : IsMark c) : isWordChar c := by
  rcases mark with digit | rfl | rfl | rfl | rfl
  · have bounds := isPlainDigit_iff.mp digit
    have other (d : Char) (outside : d.toNat < 48 ∨ 57 < d.toNat) : c ≠ d := by
      rintro rfl
      omega
    simp [isWordChar, other '"' (by decide), other '[' (by decide), other ']' (by decide),
      other '\x7b' (by decide), other '\x7d' (by decide), other ',' (by decide)]
  all_goals decide

theorem word_chars {j : Json} (word : j.isWord) :
    (scalarText .ascii j).toList ≠ [] ∧ ∀ c ∈ (scalarText .ascii j).toList, isWordChar c := by
  rcases word_cases word with constant | ⟨n, rfl⟩ | ⟨x, finite, rfl⟩
  · have all : ∀ text ∈ constants.map (scalarText .ascii),
        text.toList ≠ [] ∧ ∀ c ∈ text.toList, isWordChar c := by decide
    exact all _ (List.mem_map_of_mem constant)
  · rw [scalarText, intText, String.toList_ofList]
    refine ⟨fun none => ?_, fun c member => isWordChar_of_isMark (intChars_marks n c member)⟩
    have starts := startsNumeral_int n
    rw [none] at starts
    cases starts
  · rw [scalarText, floatText_of_finite finite, Binary64.text, String.toList_ofList]
    obtain ⟨l, _, _, chars, _⟩ := Binary64.exists_numeral finite
    refine ⟨fun none => ?_, fun c member => isWordChar_of_isMark ?_⟩
    · have starts := startsNumeral_float finite
      rw [none] at starts
      cases starts
    · rw [chars] at member
      rcases List.mem_append.mp member with sign | digit
      · cases negative : x.isNegative with
        | false => simp [signChars, negative] at sign
        | true =>
          have minus : c = '-' := by simpa [signChars, negative] using sign
          exact .inr (.inr (.inr (.inr minus)))
      · exact l.mem_chars digit

/-! Documents -/

variable {escaping : Escaping}

/-- What stands behind the first of some parts. -/
def behindFirst {α : Type} (text : List α → String) : List α → List Char
  | [] => []
  | part :: rest => ',' :: (text (part :: rest)).toList

theorem compact_word {j : Json} (word : j.isWord) :
    compact escaping j = scalarText escaping j := by
  cases j with
  | text s => cases word
  | list items => cases word
  | map entries => cases word
  | _ => rw [compact] <;> simp

theorem compact_text (cs rest : List Char) :
    (compact .ascii (.text (cs.map .char))).toList ++ rest =
      '"' :: (asciiChars cs ++ '"' :: rest) := by
  rw [compact, scalarText, stringText, String.toList_ofList]
  · simp [asciiChars, List.flatMap_map, runeChars]
  all_goals simp

theorem compact_list (items : List Json) (rest : List Char) :
    (compact escaping (.list items)).toList ++ rest =
      '[' :: ((compactItems escaping items).toList ++ ']' :: rest) := by
  simp [compact]

theorem compact_map (entries : List (List Rune × Json)) (rest : List Char) :
    (compact escaping (.map entries)).toList ++ rest =
      '\x7b' :: ((compactEntries escaping entries).toList ++ '\x7d' :: rest) := by
  simp [compact]

theorem compactItems_cons (item : Json) (others : List Json) (rest : List Char) :
    (compactItems escaping (item :: others)).toList ++ rest =
      (compact escaping item).toList ++
        (behindFirst (compactItems escaping) others ++ rest) := by
  cases others <;> simp [compactItems, behindFirst]

theorem compactEntries_cons (cs : List Char) (item : Json) (others : List (List Rune × Json))
    (rest : List Char) :
    (compactEntries .ascii ((cs.map .char, item) :: others)).toList ++ rest =
      '"' :: (asciiChars cs ++ '"' :: ':' :: ((compact .ascii item).toList ++
        (behindFirst (compactEntries .ascii) others ++ rest))) := by
  cases others <;>
    simp [compactEntries, behindFirst, stringText, asciiChars, List.flatMap_map, runeChars]

/-- Whether a text can stand behind a part. -/
def Closing (rest : List Char) : Prop := ∀ c ∈ rest.head?, c = ',' ∨ c = ']' ∨ c = '\x7d'

theorem Closing.stop {rest : List Char} (closing : Closing rest) :
    ∀ c ∈ rest.head?, isWordChar c = false := by
  intro c head
  rcases closing c head with rfl | rfl | rfl <;> decide

theorem closing_behind {α : Type} (text : List α → String) (parts : List α) {bracket : Char}
    (closer : bracket = ']' ∨ bracket = '\x7d') (rest : List Char) :
    Closing (behindFirst text parts ++ bracket :: rest) := by
  cases parts with
  | nil =>
    rintro c ⟨⟩
    exact .inr closer
  | cons part others =>
    rintro c ⟨⟩
    exact .inl rfl

/-- Whether a character can be the first of the text of a document. -/
def Opens (j : Json) (c : Char) : Prop :=
  match j.opening? with
  | some sign => c = sign
  | none => isWordChar c

theorem head_compact {j : Json} (whole : j.Whole) (rest : List Char) :
    ∃ c more, (compact .ascii j).toList ++ rest = c :: more ∧ j.Opens c := by
  by_cases word : j.isWord
  · obtain ⟨some, all⟩ := word_chars word
    obtain ⟨c, more, chars⟩ := List.exists_cons_of_ne_nil some
    refine ⟨c, more ++ rest, ?_, ?_⟩
    · rw [compact_word word, chars, List.cons_append]
    · rw [Opens, Option.isNone_iff_eq_none.mp word]
      exact all c (by simp [chars])
  · cases j with
    | text s =>
      obtain ⟨cs, rfl⟩ := Rune.exists_chars whole
      exact ⟨_, _, compact_text cs rest, rfl⟩
    | list items => exact ⟨_, _, compact_list items rest, rfl⟩
    | map entries => exact ⟨_, _, compact_map entries rest, rfl⟩
    | _ => exact absurd rfl word

theorem isWordChar_opening {j : Json} {sign : Char} (opening : j.opening? = some sign) :
    isWordChar sign = false := by
  cases j <;> cases opening <;> rfl

/-- What starts a document tells whether it is a word, a text, a list or a map. -/
theorem Opens.unique {a b : Json} {c : Char} (first : a.Opens c) (second : b.Opens c) :
    a.opening? = b.opening? := by
  unfold Opens at first second
  cases found : a.opening? with
  | none =>
    cases found' : b.opening? with
    | none => rfl
    | some sign =>
      simp only [found, found'] at first second
      rw [second, isWordChar_opening found'] at first
      cases first
  | some sign =>
    cases found' : b.opening? with
    | none =>
      simp only [found, found'] at first second
      rw [first, isWordChar_opening found] at second
      cases second
    | some sign' =>
      simp only [found, found'] at first second
      rw [← first, second]

theorem not_opens_bracket {j : Json} {bracket : Char} (closer : bracket = ']' ∨ bracket = '\x7d') :
    ¬j.Opens bracket := by
  unfold Opens
  rcases closer with rfl | rfl <;> cases j <;> simp [opening?, isWordChar]

theorem opening_eq {a b : Json} (whole : a.Whole) (whole' : b.Whole) {rest others : List Char}
    (same : (compact .ascii a).toList ++ rest = (compact .ascii b).toList ++ others) :
    a.opening? = b.opening? := by
  obtain ⟨c, more, chars, opens⟩ := head_compact whole rest
  obtain ⟨d, more', chars', opens'⟩ := head_compact whole' others
  rw [chars, chars'] at same
  obtain ⟨rfl, _⟩ := List.cons.inj same
  exact opens.unique opens'

theorem word_split {a b : Json} (word : a.isWord) (word' : b.isWord) {rest others : List Char}
    (closing : Closing rest) (closing' : Closing others)
    (same : (compact .ascii a).toList ++ rest = (compact .ascii b).toList ++ others) :
    a = b ∧ rest = others := by
  rw [compact_word word, compact_word word'] at same
  obtain ⟨text, behind⟩ := append_inj_of_stop (word_chars word).2 (word_chars word').2 closing.stop
    closing'.stop same
  exact ⟨word_inj word word' (String.toList_inj.mp text), behind⟩

/-- Behind equal parts, lists of further parts either both end or both go on. -/
theorem behindFirst_split {α : Type} (text : List α → String) {first second : List α}
    {bracket : Char} (closer : bracket = ']' ∨ bracket = '\x7d') {rest others : List Char}
    (same : behindFirst text first ++ bracket :: rest =
      behindFirst text second ++ bracket :: others) :
    (first = [] ∧ second = [] ∧ rest = others) ∨
      (text first).toList ++ bracket :: rest = (text second).toList ++ bracket :: others := by
  have comma : bracket ≠ ',' := by rcases closer with rfl | rfl <;> decide
  cases first with
  | nil =>
    cases second with
    | nil => exact .inl ⟨rfl, rfl, (List.cons.inj same).2⟩
    | cons part later => exact absurd (List.cons.inj same).1 comma
  | cons part later =>
    cases second with
    | nil => exact absurd (List.cons.inj same).1.symm comma
    | cons part' later' => exact .inr (List.cons.inj same).2

mutual

/-- The text of a document shows where the document ends and which one it is. -/
theorem compact_inj {a b : Json} (whole : a.Whole) (whole' : b.Whole) {rest others : List Char}
    (closing : Closing rest) (closing' : Closing others)
    (same : (compact .ascii a).toList ++ rest = (compact .ascii b).toList ++ others) :
    a = b ∧ rest = others := by
  have alike := opening_eq whole whole' same
  cases a with
  | text s =>
    cases b with
    | text t =>
      obtain ⟨cs, rfl⟩ := Rune.exists_chars whole
      obtain ⟨ds, rfl⟩ := Rune.exists_chars whole'
      rw [compact_text, compact_text] at same
      obtain ⟨rfl, behind⟩ := asciiChars_inj (List.cons.inj same).2
      exact ⟨rfl, behind⟩
    | _ => cases alike
  | list items =>
    cases b with
    | list items' =>
      rw [compact_list, compact_list] at same
      obtain ⟨rfl, behind⟩ := compactItems_inj whole whole' (List.cons.inj same).2
      exact ⟨rfl, behind⟩
    | _ => cases alike
  | map entries =>
    cases b with
    | map entries' =>
      rw [compact_map, compact_map] at same
      obtain ⟨rfl, behind⟩ := compactEntries_inj whole whole' (List.cons.inj same).2
      exact ⟨rfl, behind⟩
    | _ => cases alike
  | _ =>
    have word' : b.isWord := by rw [isWord, ← alike]; rfl
    exact word_split rfl word' closing closing' same

theorem compactItems_inj {items items' : List Json} (whole : ItemsWhole items)
    (whole' : ItemsWhole items') {rest others : List Char}
    (same : (compactItems .ascii items).toList ++ ']' :: rest =
      (compactItems .ascii items').toList ++ ']' :: others) :
    items = items' ∧ rest = others := by
  cases items with
  | nil =>
    cases items' with
    | nil => exact ⟨rfl, (List.cons.inj same).2⟩
    | cons item' later' =>
      rw [compactItems_cons] at same
      obtain ⟨c, more, chars, opens⟩ := head_compact whole'.1 _
      rw [chars] at same
      cases same
      exact absurd opens (not_opens_bracket (.inl rfl))
  | cons item later =>
    cases items' with
    | nil =>
      rw [compactItems_cons] at same
      obtain ⟨c, more, chars, opens⟩ := head_compact whole.1 _
      rw [chars] at same
      cases same
      exact absurd opens (not_opens_bracket (.inl rfl))
    | cons item' later' =>
      rw [compactItems_cons, compactItems_cons] at same
      obtain ⟨rfl, left⟩ := compact_inj whole.1 whole'.1 (closing_behind _ _ (.inl rfl) _)
        (closing_behind _ _ (.inl rfl) _) same
      rcases behindFirst_split _ (.inl rfl) left with ⟨rfl, rfl, behind⟩ | more
      · exact ⟨rfl, behind⟩
      · obtain ⟨rfl, behind⟩ := compactItems_inj whole.2 whole'.2 more
        exact ⟨rfl, behind⟩

theorem compactEntries_inj {entries entries' : List (List Rune × Json)}
    (whole : EntriesWhole entries) (whole' : EntriesWhole entries') {rest others : List Char}
    (same : (compactEntries .ascii entries).toList ++ '\x7d' :: rest =
      (compactEntries .ascii entries').toList ++ '\x7d' :: others) :
    entries = entries' ∧ rest = others := by
  cases entries with
  | nil =>
    cases entries' with
    | nil => exact ⟨rfl, (List.cons.inj same).2⟩
    | cons entry' later' =>
      obtain ⟨key', item'⟩ := entry'
      obtain ⟨cs, rfl⟩ := Rune.exists_chars whole'.1
      rw [compactEntries_cons] at same
      cases same
  | cons entry later =>
    obtain ⟨key, item⟩ := entry
    obtain ⟨cs, rfl⟩ := Rune.exists_chars whole.1
    cases entries' with
    | nil =>
      rw [compactEntries_cons] at same
      cases same
    | cons entry' later' =>
      obtain ⟨key', item'⟩ := entry'
      obtain ⟨ds, rfl⟩ := Rune.exists_chars whole'.1
      rw [compactEntries_cons, compactEntries_cons] at same
      obtain ⟨rfl, colon⟩ := asciiChars_inj (List.cons.inj same).2
      obtain ⟨rfl, left⟩ := compact_inj whole.2.1 whole'.2.1 (closing_behind _ _ (.inr rfl) _)
        (closing_behind _ _ (.inr rfl) _) (List.cons.inj colon).2
      rcases behindFirst_split _ (.inr rfl) left with ⟨rfl, rfl, behind⟩ | more
      · exact ⟨rfl, behind⟩
      · obtain ⟨rfl, behind⟩ := compactEntries_inj whole.2.2 whole'.2.2 more
        exact ⟨rfl, behind⟩

end

end Json
end Parley
