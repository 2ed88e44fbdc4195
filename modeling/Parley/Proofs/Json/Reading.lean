import Parley.Proofs.Json.Canonical
import Parley.Proofs.Json.Numbers
import Parley.Value.Format

/-!
Reading documents back from their texts over several lines. A part is read up to the comma or the
line break behind it, and one character more than the text has bounds how deep its parts are nested.
-/
namespace Parley

open Numeral

theorem short_of_isWritableInt {n : Int} (writable : isWritableInt n) :
    (natChars n.natAbs).length ≤ maxDigits := by
  have fits {k n : Nat} (positive : 0 < k) (below : decide (n < Nat.pow 10 k)) :
      (natChars n).length ≤ k :=
    (Nat.length_toDigits_le_iff (by decide) positive).mpr (of_decide_eq_true below)
  exact fits (by decide) writable

namespace Json

mutual

/-- Whether a document is read back: its whole numbers can be written, its texts have no halves of
surrogate pairs, and no key stands twice in a map. -/
def Readable : Json → Prop
  | .int n => isWritableInt n
  | .text s => ∀ r ∈ s, r.isChar
  | .list items => ItemsReadable items
  | .map entries => (Assoc.keys entries).Nodup ∧ EntriesReadable entries
  | _ => True

def ItemsReadable : List Json → Prop
  | [] => True
  | item :: rest => item.Readable ∧ ItemsReadable rest

def EntriesReadable : List (List Rune × Json) → Prop
  | [] => True
  | (key, item) :: rest => (∀ r ∈ key, r.isChar) ∧ item.Readable ∧ EntriesReadable rest

end

mutual

theorem readable_ofValue {v : Value} (plain : v.Plain) (writable : v.isWritable) :
    (ofValue v).Readable := by
  cases v with
  | int n => exact writable
  | text s => exact whole_ofValue (.text s)
  | list items => exact readable_ofItems plain writable
  | map entries =>
    exact ⟨keys_nodup_ofEntries plain.1, readable_ofEntries plain.2 writable⟩
  | _ => trivial

theorem readable_ofItems {items : List Value} (plain : Value.ItemsPlain items)
    (writable : Value.areWritable items) : ItemsReadable (ofItems items) := by
  cases items with
  | nil => trivial
  | cons item rest =>
    obtain ⟨first, later⟩ := Bool.and_eq_true_iff.mp writable
    exact ⟨readable_ofValue plain.1 first, readable_ofItems plain.2 later⟩

theorem readable_ofEntries {entries : List (String × Value)} (plain : Value.EntriesPlain entries)
    (writable : Value.entriesAreWritable entries) : EntriesReadable (ofEntries entries) := by
  cases entries with
  | nil => trivial
  | cons entry rest =>
    obtain ⟨first, later⟩ := Bool.and_eq_true_iff.mp writable
    exact ⟨whole_ofValue (.text entry.1), readable_ofValue plain.1 first,
      readable_ofEntries plain.2 later⟩

end

/-! Words -/

/-- Whether a text ends or goes on with a comma or a line break. -/
def Breaks (rest : List Char) : Prop := ∀ c ∈ rest.head?, c = ',' ∨ c = '\n'

theorem Breaks.halts {rest : List Char} (breaks : Breaks rest) : Halts rest := by
  intro c head
  rcases breaks c head with rfl | rfl <;> decide

theorem outer_minus (inner : Reader Json) {c : Char} (digit : isPlainDigit c) (cs : List Char) :
    outer inner ('-' :: c :: cs) = unsigned true (c :: cs) := by
  unfold outer
  split
  case h_9 same => cases same; cases digit
  case h_10 same => cases same; rfl
  case h_11 other => exact absurd rfl (other (c :: cs))
  all_goals
    rename_i same
    cases same

theorem outer_digit (inner : Reader Json) {c : Char} (digit : isPlainDigit c) (cs : List Char) :
    outer inner (c :: cs) = unsigned false (c :: cs) := by
  unfold outer
  split
  case h_11 => rfl
  all_goals
    rename_i same
    cases same
    cases digit

variable {rest : List Char}

theorem outer_signed (inner : Reader Json) (negative : Bool) {cs : List Char} (some_chars : cs ≠ [])
    (digits : ∀ c ∈ cs.head?, isPlainDigit c) :
    outer inner (signChars negative ++ cs ++ rest) = unsigned negative (cs ++ rest) := by
  obtain ⟨c, more, rfl⟩ := List.exists_cons_of_ne_nil some_chars
  have digit := digits c rfl
  cases negative with
  | false => exact outer_digit inner digit (more ++ rest)
  | true => exact outer_minus inner digit (more ++ rest)

/-- Documents that are one word are read up to a comma or a line break. -/
theorem outer_word (inner : Reader Json) {j : Json} (word : j.isWord) (readable : j.Readable)
    (breaks : Breaks rest) :
    outer inner ((scalarText .ascii j).toList ++ rest) = .ok (j, rest) := by
  rcases word_cases word with constant | ⟨n, rfl⟩ | ⟨x, finite, rfl⟩
  · simp only [constants, List.mem_cons, List.not_mem_nil, or_false] at constant
    rcases constant with rfl | rfl | rfl | rfl | rfl | rfl <;> rfl
  · have short := short_of_isWritableInt readable
    have number := unsigned_natChars (decide (n < 0)) short breaks.halts
    have value : (if decide (n < 0) then -(n.natAbs : Int) else n.natAbs) = n := by
      split <;> rename_i side <;> simp only [decide_eq_true_eq] at side <;> omega
    rw [scalarText, intText, String.toList_ofList, intChars_signed,
      outer_signed inner _ (natChars_ne_nil _) (head_natChars _), number, value]
  · obtain ⟨l, marked, unpadded, chars, nearest⟩ := Binary64.exists_numeral finite
    obtain ⟨c, more, whole, digit⟩ := l.head_chars
    rw [scalarText, floatText_of_finite finite, Binary64.text, String.toList_ofList, chars,
      outer_signed inner _ (by simp [whole]) (by simp [whole, digit]),
      unsigned_layout _ marked unpadded breaks.halts, nearest]

/-! Parts between brackets -/

/-- Whether a text starts neither with a blank nor with a closing bracket. -/
def isSolid : List Char → Bool
  | c :: _ => !isSpace c && c != ']' && c != '\x7d'
  | [] => false

theorem isSolid_cons {c : Char} {cs : List Char} (solid : isSolid (c :: cs)) :
    isSpace c = false ∧ c ≠ ']' ∧ c ≠ '\x7d' := by
  simpa [isSolid, and_assoc] using solid

theorem skipSpace_of_isSolid {cs : List Char} (solid : isSolid cs) :
    skipSpace (cs ++ rest) = cs ++ rest := by
  cases cs with
  | nil => cases solid
  | cons c more => exact List.dropWhile_cons_of_neg (by simp [(isSolid_cons solid).1])

theorem isSolid_of_startsNumeral {cs : List Char} (starts : startsNumeral cs) : isSolid cs := by
  cases cs with
  | nil => cases starts
  | cons c more =>
    by_cases minus : c = '-'
    · rw [minus]
      rfl
    · have digit : isPlainDigit c := by rwa [startsNumeral.eq_2 _ _ (by simp [minus])] at starts
      have bounds := isPlainDigit_iff.mp digit
      have other (d : Char) (outside : d.toNat < 48 ∨ 57 < d.toNat) : c ≠ d := by
        rintro rfl
        omega
      simp [isSolid, isSpace, other ' ' (by decide), other '\t' (by decide),
        other '\n' (by decide), other '\r' (by decide), other ']' (by decide),
        other '\x7d' (by decide)]

theorem skipSpace_newLine (k : Nat) (rest : List Char) :
    skipSpace ((newLine k).toList ++ rest) = skipSpace rest := by
  have blank : ∀ c ∈ (newLine k).toList, isSpace c := by
    intro c member
    rw [newLine, String.toList_ofList] at member
    rcases List.mem_cons.mp member with rfl | space
    · rfl
    · rw [List.eq_of_mem_replicate space]
      rfl
  exact List.dropWhile_append_of_pos blank

theorem breaks_newLine (k : Nat) (rest : List Char) : Breaks ((newLine k).toList ++ rest) := by
  rw [newLine, String.toList_ofList]
  rintro c ⟨⟩
  exact .inr rfl

/-- Parts on lines of their own, with commas between them. -/
def onLines {α : Type} (text : α → List Char) (k : Nat) (parts : List α) : List Char :=
  (',' :: (newLine k).toList).intercalate (parts.map text)

section Parts

variable {α : Type} {text : α → List Char} {item : Reader α} {bracket : Char} {parts : List α}
variable {k m : Nat}

theorem onLines_single (part : α) : onLines text k [part] = text part := by
  simp [onLines, List.intercalate]

theorem onLines_cons (part next : α) (others : List α) :
    onLines text k (part :: next :: others) =
      text part ++ ',' :: ((newLine k).toList ++ onLines text k (next :: others)) := by
  simp [onLines, List.intercalate]

theorem length_le_onLines {part : α} (member : part ∈ parts) :
    (text part).length ≤ (onLines text k parts).length := by
  induction parts with
  | nil => cases member
  | cons first others ih =>
    cases others with
    | nil => rw [List.mem_singleton.mp member, onLines_single]
    | cons next later =>
      rw [onLines_cons, List.length_append, List.length_cons, List.length_append]
      rcases List.mem_cons.mp member with rfl | behind
      · omega
      · have within := ih behind
        omega

theorem length_parts (parts : List α) : parts.length ≤ (onLines text k parts).length + 1 := by
  induction parts with
  | nil => exact Nat.zero_le _
  | cons first others ih =>
    cases others with
    | nil => exact Nat.le_add_left _ _
    | cons next later =>
      have comma : (onLines text k (first :: next :: later)).length =
          (text first).length + ((newLine k).toList.length +
            (onLines text k (next :: later)).length + 1) := by
        rw [onLines_cons, List.length_append, List.length_cons, List.length_append]
      rw [List.length_cons, comma]
      omega

theorem skipSpace_bracket (closer : bracket = ']' ∨ bracket = '\x7d') (k : Nat)
    (rest : List Char) :
    skipSpace ((newLine k).toList ++ bracket :: rest) = bracket :: rest := by
  rw [skipSpace_newLine]
  rcases closer with rfl | rfl <;> rfl

theorem separated_last {fuel : Nat} {cs behind : List Char} {part : α}
    (read : item (skipSpace cs) = .ok (part, behind)) (comma : bracket ≠ ',')
    (closes : skipSpace behind = bracket :: rest) :
    separated item bracket (fuel + 1) cs = .ok ([part], rest) := by
  rw [separated]
  dsimp only
  rw [read, ok_bind]
  dsimp only
  rw [closes]
  split
  · rename_i same
    exact absurd (List.cons.inj same).1 comma
  · rename_i same
    cases same
    rw [if_pos rfl]
    rfl
  · rename_i same
    cases same

theorem separated_next {fuel : Nat} {cs behind more : List Char} {part : α} {others : List α}
    (read : item (skipSpace cs) = .ok (part, behind)) (comma : skipSpace behind = ',' :: more)
    (later : separated item bracket fuel more = .ok (others, rest)) :
    separated item bracket (fuel + 1) cs = .ok (part :: others, rest) := by
  rw [separated]
  dsimp only
  rw [read, ok_bind]
  simp only [comma, later]
  rfl

/-- Parts each of which is read up to a comma or a line break are read one after the other. -/
theorem separated_onLines (closer : bracket = ']' ∨ bracket = '\x7d') (some_parts : parts ≠ [])
    (reads : ∀ part ∈ parts, ∀ rest, Breaks rest → item (text part ++ rest) = .ok (part, rest))
    (solid : ∀ part ∈ parts, isSolid (text part)) {fuel : Nat} (enough : parts.length ≤ fuel) :
    separated item bracket fuel
        ((newLine k).toList ++ (onLines text k parts ++ ((newLine m).toList ++ bracket :: rest))) =
      .ok (parts, rest) := by
  induction parts generalizing fuel with
  | nil => exact absurd rfl some_parts
  | cons part others ih =>
    cases fuel with
    | zero => cases enough
    | succ fuel =>
      have read {behind : List Char} (breaks : Breaks behind) :
          item (skipSpace ((newLine k).toList ++ (text part ++ behind))) = .ok (part, behind) := by
        rw [skipSpace_newLine, skipSpace_of_isSolid (solid part List.mem_cons_self)]
        exact reads part List.mem_cons_self behind breaks
      cases others with
      | nil =>
        rw [onLines_single]
        refine separated_last (read (breaks_newLine m _)) ?_ (skipSpace_bracket closer m rest)
        rcases closer with rfl | rfl <;> decide
      | cons next later =>
        rw [onLines_cons, List.append_assoc, List.cons_append, List.append_assoc]
        refine separated_next (read ?_) rfl (ih (by simp)
          (fun p member => reads p (List.mem_cons_of_mem part member))
          (fun p member => solid p (List.mem_cons_of_mem part member))
          (Nat.le_of_succ_le_succ enough))
        rintro c ⟨⟩
        exact .inl rfl

theorem bracketed_onLines (closer : bracket = ']' ∨ bracket = '\x7d') (some_parts : parts ≠ [])
    (reads : ∀ part ∈ parts, ∀ rest, Breaks rest → item (text part ++ rest) = .ok (part, rest))
    (solid : ∀ part ∈ parts, isSolid (text part)) :
    bracketed item bracket
        ((newLine k).toList ++ (onLines text k parts ++ ((newLine m).toList ++ bracket :: rest))) =
      .ok (parts, rest) := by
  have head : ∃ c more, skipSpace
      ((newLine k).toList ++ (onLines text k parts ++ ((newLine m).toList ++ bracket :: rest))) =
        c :: more ∧ c ≠ bracket := by
    obtain ⟨first, others, rfl⟩ := List.exists_cons_of_ne_nil some_parts
    have shown := solid first List.mem_cons_self
    have starts : ∃ later, onLines text k (first :: others) = text first ++ later := by
      cases others with
      | nil => exact ⟨[], by rw [onLines_single, List.append_nil]⟩
      | cons next later => exact ⟨_, onLines_cons first next later⟩
    obtain ⟨later, starts⟩ := starts
    rw [skipSpace_newLine, starts, List.append_assoc, skipSpace_of_isSolid shown]
    cases found : text first with
    | nil =>
      rw [found] at shown
      cases shown
    | cons c more =>
      rw [found] at shown
      obtain ⟨_, square, curly⟩ := isSolid_cons shown
      refine ⟨c, _, rfl, ?_⟩
      rcases closer with rfl | rfl
      · exact square
      · exact curly
  obtain ⟨c, more, shown, other⟩ := head
  have enough := @length_parts α text k parts
  rw [bracketed, shown]
  dsimp only
  rw [if_neg other]
  refine separated_onLines closer some_parts reads solid ?_
  simp only [List.length_append, List.length_cons]
  omega

end Parts

/-! Documents -/

theorem indented_word {k : Nat} {j : Json} (word : j.isWord) :
    indented .ascii k j = scalarText .ascii j := by
  cases j with
  | text s => cases word
  | list items => cases word
  | map entries => cases word
  | _ => rw [indented] <;> simp

theorem stringText_append (s : List Rune) (rest : List Char) :
    (stringText .ascii s).toList ++ rest =
      '"' :: (s.flatMap (runeChars .ascii) ++ '"' :: rest) := by
  simp [stringText]

theorem string_runes {s : List Rune} (whole : ∀ r ∈ s, r.isChar) (rest : List Char) :
    string (s.flatMap (runeChars .ascii) ++ '"' :: rest) = .ok (s, rest) := by
  obtain ⟨cs, rfl⟩ := Rune.exists_chars whole
  have chars : (cs.map .char).flatMap (runeChars .ascii) = asciiChars cs := by
    simp [asciiChars, List.flatMap_map, runeChars]
  rw [chars, string_asciiChars]

theorem indented_text (k : Nat) (s : List Rune) :
    indented .ascii k (.text s) = stringText .ascii s := by
  rw [indented, scalarText] <;> simp

def itemChars (k : Nat) (j : Json) : List Char := (indented .ascii k j).toList

def entryChars (k : Nat) (e : List Rune × Json) : List Char :=
  (stringText .ascii e.1).toList ++ ':' :: ' ' :: itemChars k e.2

theorem indentedItems_eq (k : Nat) (items : List Json) :
    (indentedItems .ascii k items).toList = onLines (itemChars k) k items := by
  induction items with
  | nil => rfl
  | cons item others ih =>
    cases others with
    | nil => rw [indentedItems, onLines_single, itemChars]
    | cons next later =>
      rw [onLines_cons, ← ih, itemChars, indentedItems]
      · simp
      · simp

theorem indentedEntries_eq (k : Nat) (entries : List (List Rune × Json)) :
    (indentedEntries .ascii k entries).toList = onLines (entryChars k) k entries := by
  induction entries with
  | nil => rfl
  | cons entry others ih =>
    cases others with
    | nil => simp [indentedEntries, onLines_single, entryChars, itemChars]
    | cons next later =>
      rw [onLines_cons, ← ih, entryChars, itemChars, indentedEntries]
      · simp
      · simp

theorem indented_list (k : Nat) (item : Json) (others : List Json) (rest : List Char) :
    (indented .ascii k (.list (item :: others))).toList ++ rest =
      '[' :: ((newLine (k + 1)).toList ++ (onLines (itemChars (k + 1)) (k + 1) (item :: others) ++
        ((newLine k).toList ++ ']' :: rest))) := by
  rw [← indentedItems_eq]
  simp [indented]

theorem indented_map (k : Nat) (entry : List Rune × Json) (others : List (List Rune × Json))
    (rest : List Char) :
    (indented .ascii k (.map (entry :: others))).toList ++ rest =
      '\x7b' :: ((newLine (k + 1)).toList ++
        (onLines (entryChars (k + 1)) (k + 1) (entry :: others) ++
          ((newLine k).toList ++ '\x7d' :: rest))) := by
  rw [← indentedEntries_eq]
  simp [indented]

/-- The items of a list have shorter texts than the list. -/
theorem items_fit {k d : Nat} {item : Json} {others : List Json}
    (fits : (itemChars k (.list (item :: others))).length ≤ d + 1) :
    ∀ part ∈ item :: others, (itemChars (k + 1) part).length ≤ d := by
  intro part member
  have within : (itemChars (k + 1) part).length ≤
      (onLines (itemChars (k + 1)) (k + 1) (item :: others)).length := length_le_onLines member
  rw [itemChars, ← List.append_nil (indented _ _ _).toList, indented_list] at fits
  simp only [List.length_append, List.length_cons] at fits
  omega

theorem entries_fit {k d : Nat} {entry : List Rune × Json} {others : List (List Rune × Json)}
    (fits : (itemChars k (.map (entry :: others))).length ≤ d + 1) :
    ∀ e ∈ entry :: others, (itemChars (k + 1) e.2).length ≤ d := by
  intro e member
  have within : (entryChars (k + 1) e).length ≤
      (onLines (entryChars (k + 1)) (k + 1) (entry :: others)).length := length_le_onLines member
  have shorter : (itemChars (k + 1) e.2).length ≤ (entryChars (k + 1) e).length := by
    simp only [entryChars, List.length_append, List.length_cons]
    omega
  rw [itemChars, ← List.append_nil (indented _ _ _).toList, indented_map] at fits
  simp only [List.length_append, List.length_cons] at fits
  omega

theorem isSolid_word {j : Json} (word : j.isWord) : isSolid (scalarText .ascii j).toList := by
  rcases word_cases word with constant | ⟨n, rfl⟩ | ⟨x, finite, rfl⟩
  · have all : ∀ text ∈ constants.map (scalarText .ascii), isSolid text.toList := by decide
    exact all _ (List.mem_map_of_mem constant)
  · rw [scalarText, intText, String.toList_ofList]
    exact isSolid_of_startsNumeral (startsNumeral_int n)
  · rw [scalarText, floatText_of_finite finite, Binary64.text, String.toList_ofList]
    exact isSolid_of_startsNumeral (startsNumeral_float finite)

theorem isSolid_itemChars (k : Nat) (j : Json) : isSolid (itemChars k j) := by
  unfold itemChars
  by_cases word : j.isWord
  · rw [indented_word word]
    exact isSolid_word word
  · cases j with
    | text s =>
      rw [indented_text, ← List.append_nil (stringText .ascii s).toList, stringText_append]
      rfl
    | list items => cases items <;> simp [indented, isSolid] <;> rfl
    | map entries => cases entries <;> simp [indented, isSolid] <;> rfl
    | _ => exact absurd rfl word

theorem isSolid_entryChars (k : Nat) (e : List Rune × Json) : isSolid (entryChars k e) := by
  rw [entryChars, stringText_append]
  rfl

theorem length_itemChars {k d : Nat} {j : Json} (fits : (itemChars k j).length ≤ d) :
    ∃ less, d = less + 1 := by
  have solid := isSolid_itemChars k j
  cases shown : itemChars k j with
  | nil =>
    rw [shown] at solid
    cases solid
  | cons c more =>
    rw [shown] at fits
    exact Nat.exists_eq_add_one.mpr (Nat.lt_of_lt_of_le (Nat.succ_pos _) fits)

theorem entry_entryChars {inner : Reader Json} {k : Nat} {e : List Rune × Json}
    (whole : ∀ r ∈ e.1, r.isChar)
    (read : inner (itemChars k e.2 ++ rest) = .ok (e.2, rest)) :
    entry inner (entryChars k e ++ rest) = .ok (e, rest) := by
  have colon (cs : List Char) : skipSpace (':' :: cs) = ':' :: cs := rfl
  have blank (cs : List Char) : skipSpace (' ' :: cs) = skipSpace cs := rfl
  rw [entryChars, List.append_assoc, stringText_append, List.cons_append, List.cons_append, entry,
    string_runes whole, ok_bind]
  simp only [colon, blank, skipSpace_of_isSolid (isSolid_itemChars k e.2), read]
  rfl

mutual

/-- A document is read from its text, up to a comma or a line break. -/
theorem ofDepth_itemChars {j : Json} (readable : j.Readable) {k d : Nat}
    (fits : (itemChars k j).length ≤ d) {rest : List Char} (breaks : Breaks rest) :
    ofDepth d (itemChars k j ++ rest) = .ok (j, rest) := by
  obtain ⟨less, rfl⟩ := length_itemChars fits
  rw [ofDepth]
  by_cases word : j.isWord
  · rw [itemChars, indented_word word]
    exact outer_word _ word readable breaks
  · cases j with
    | text s =>
      rw [itemChars, indented_text, stringText_append, outer, string_runes readable]
      rfl
    | list items =>
      cases items with
      | nil =>
        rw [itemChars, indented]
        rfl
      | cons item others =>
        have within := items_fit fits
        rw [itemChars, indented_list, outer, bracketed_onLines (.inl rfl) (by simp)
          (fun part member rest => ofDepth_items readable part member (within part member))
          fun part _ => isSolid_itemChars _ part]
        rfl
    | map entries =>
      cases entries with
      | nil =>
        rw [itemChars, indented]
        rfl
      | cons entry others =>
        have within := entries_fit fits
        rw [itemChars, indented_map, outer, bracketed_onLines (.inr rfl) (by simp)
          (fun e member rest => ofDepth_entries readable.2 e member (within e member))
          fun e _ => isSolid_entryChars _ e, ok_bind]
        dsimp only
        rw [Assoc.ofList_of_nodup readable.1]
        rfl
    | _ => exact absurd rfl word

theorem ofDepth_items {items : List Json} (readable : ItemsReadable items) :
    ∀ item ∈ items, ∀ {k d : Nat}, (itemChars k item).length ≤ d → ∀ {rest : List Char},
      Breaks rest → ofDepth d (itemChars k item ++ rest) = .ok (item, rest) := by
  cases items with
  | nil => exact fun item member => nomatch member
  | cons first others =>
    refine List.forall_mem_cons.mpr ⟨fun fits _ breaks => ?_, ofDepth_items readable.2⟩
    exact ofDepth_itemChars readable.1 fits breaks

theorem ofDepth_entries {entries : List (List Rune × Json)} (readable : EntriesReadable entries) :
    ∀ e ∈ entries, ∀ {k d : Nat}, (itemChars k e.2).length ≤ d → ∀ {rest : List Char},
      Breaks rest → entry (ofDepth d) (entryChars k e ++ rest) = .ok (e, rest) := by
  cases entries with
  | nil => exact fun e member => nomatch member
  | cons first others =>
    obtain ⟨key, item⟩ := first
    refine List.forall_mem_cons.mpr ⟨fun fits _ breaks => ?_, ofDepth_entries readable.2.2⟩
    exact entry_entryChars readable.1 (ofDepth_itemChars readable.2.1 fits breaks)

end

/-- The text of a document is read as the document. -/
theorem parse_indented {j : Json} (readable : j.Readable) :
    parse (indented .ascii 0 j) = .ok j := by
  have ends : Breaks [] := by simp [Breaks]
  have start := @skipSpace_of_isSolid [] _ (isSolid_itemChars 0 j)
  have read := ofDepth_itemChars readable (Nat.le_succ (itemChars 0 j).length) ends
  rw [List.append_nil] at start read
  rw [parse, ofChars, ← itemChars, start, read]
  rfl

end Json
end Parley
