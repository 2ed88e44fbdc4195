import Mathlib.Data.List.Find
import Parley.Proofs.Expr.Numerals
import Parley.Proofs.Expr.Unambiguous

/-!
The text of an expression as the texts of its terminals, one behind the other. Each of them is a
quoted text, an operator that starts with `/`, `<` or `>`, or has none of the characters of these.
-/
namespace Parley

open Numeral

namespace Terminal

/-- Whether a character is in no operator that starts with `/`, `<` or `>` and marks no quoted
text. -/
def isCalm (c : Char) : Bool :=
  c != '\\' && c != '"' && c != '\'' && c != '/' && c != '<' && c != '>'

theorem isCalm_iff {c : Char} : isCalm c ↔
    c ≠ '\\' ∧ c ≠ '"' ∧ c ≠ '\'' ∧ c ≠ '/' ∧ c ≠ '<' ∧ c ≠ '>' := by
  simp [isCalm, and_assoc]

/-- How the text of a terminal can look. -/
inductive Shape : Terminal → List Char → Prop
  | quoted {t : Terminal} {quote : Char} {inner : List Char} (mark : quote = '"' ∨ quote = '\'')
      (ends : inner.getLast? = some quote)
      (closed : ∀ rest, quotedLength? quote (inner ++ rest) = some inner.length) :
      Shape t (quote :: inner)
  | sharp {op : BinaryOp} {c : Char} {more : List Char} (other : op ≠ .sub)
      (sharp : c = '/' ∨ c = '<' ∨ c = '>') (equals : more = [] ∨ more = ['=']) :
      Shape (operator op) (c :: more)
  | calm {t : Terminal} {cs : List Char} (all : ∀ c ∈ cs, isCalm c) : Shape t cs

/-- A quoted text ends at its quote whatever follows. -/
theorem exists_quoted {quote : Char} {cs : List Char} {n : Nat}
    (found : quotedLength? quote cs = some n) : ∃ inner behind, cs = inner ++ behind ∧
      n = inner.length ∧ inner.getLast? = some quote ∧
        ∀ rest, quotedLength? quote (inner ++ rest) = some inner.length := by
  fun_induction quotedLength? quote cs generalizing n with
  | case1 | case2 | case3 => cases found
  | case4 c rest line ih =>
    obtain ⟨m, inside, rfl⟩ := Option.map_eq_some_iff.mp found
    obtain ⟨inner, behind, rfl, rfl, last, closed⟩ := ih inside
    refine ⟨'\\' :: c :: inner, behind, rfl, rfl, ?_, fun rest => ?_⟩
    · simp [List.getLast?_cons, last]
    · rw [List.cons_append, List.cons_append, quotedLength?, if_neg line, closed]
      rfl
  | case5 rest last slash =>
    cases found
    have plain := ne_backslash last slash
    refine ⟨[quote], rest, rfl, rfl, rfl, fun more => ?_⟩
    rw [List.singleton_append, quotedLength?, if_pos rfl]
    · rfl
    · exact fun same _ => plain same
    · exact fun _ _ same _ => plain same
  | case6 c rest last slash other ih =>
    have plain := ne_backslash last slash
    obtain ⟨m, inside, rfl⟩ := Option.map_eq_some_iff.mp found
    obtain ⟨inner, behind, rfl, rfl, last, closed⟩ := ih inside
    refine ⟨c :: inner, behind, rfl, rfl, ?_, fun rest => ?_⟩
    · simp [List.getLast?_cons, last]
    · rw [List.cons_append, quotedLength_ordinary other plain, closed]
      rfl

/-! Numbers -/

theorem isCalm_of_isDecimalDigit {c : Char} (digit : isDecimalDigit c) : isCalm c := by
  rw [isCalm_iff]
  refine ⟨?_, ?_, ?_, ?_, ?_, ?_⟩ <;>
    · rintro rfl
      revert digit
      decide

theorem digitCount_le (cs : List Char) : digitCount cs ≤ cs.length :=
  (List.takeWhile_prefix _).length_le

theorem fractionLength_le (cs : List Char) : fractionLength cs ≤ cs.length := by
  unfold fractionLength
  split
  · rename_i rest
    have := digitCount_le rest
    rw [List.length_cons]
    split <;> omega
  · exact Nat.zero_le _

theorem exponentLength_le (cs : List Char) : exponentLength cs ≤ cs.length := by
  unfold exponentLength
  split
  · rename_i c rest
    split
    · have bound {signed : Nat} (part : signed ≤ rest.length) :
          (if digitCount (rest.drop signed) = 0 then 0
            else 1 + signed + digitCount (rest.drop signed)) ≤ (c :: rest).length := by
        have := digitCount_le (rest.drop signed)
        rw [List.length_drop] at this
        rw [List.length_cons]
        split <;> omega
      cases rest with
      | nil => exact bound (Nat.le_refl 0)
      | cons s more =>
        refine bound ?_
        show (if s = '+' ∨ s = '-' then 1 else 0) ≤ more.length + 1
        split <;> omega
    · exact Nat.zero_le _
  · exact Nat.zero_le _

theorem numberLength_le (cs : List Char) : numberLength cs ≤ cs.length := by
  have whole := digitCount_le cs
  have part := fractionLength_le (cs.drop (digitCount cs))
  have power := exponentLength_le
    (cs.drop (digitCount cs + fractionLength (cs.drop (digitCount cs))))
  rw [List.length_drop] at part power
  unfold numberLength
  dsimp only
  omega

theorem calm_number (cs : List Char) : ∀ c ∈ cs.take (numberLength cs), isCalm c := by
  have digits {ds : List Char} (all : ∀ c ∈ ds, isDecimalDigit c) : ∀ c ∈ ds, isCalm c :=
    fun c member => isCalm_of_isDecimalDigit (all c member)
  unfold numberLength
  rw [List.take_add, List.take_add]
  intro c member
  rcases List.mem_append.mp member with member | power
  · rcases List.mem_append.mp member with whole | part
    · exact digits (digits_take cs) c whole
    · rcases fraction_take (cs.drop (digitCount cs)) with none | ⟨tail, same, all⟩
      · rw [none] at part
        cases part
      · rw [same] at part
        rcases List.mem_cons.mp part with rfl | later
        · rfl
        · exact digits all c later
  · rcases exponent_take (cs.drop (digitCount cs + fractionLength (cs.drop (digitCount cs))))
      with none | ⟨e, signs, tail, same, mark, sign, _, all⟩
    · rw [none] at power
      cases power
    · rw [same] at power
      rcases List.mem_cons.mp power with rfl | power
      · rcases mark with rfl | rfl <;> rfl
      · rcases List.mem_append.mp power with here | later
        · rcases sign with rfl | rfl | rfl
          · cases here
          · rw [List.mem_singleton.mp here]
            rfl
          · rw [List.mem_singleton.mp here]
            rfl
        · exact digits all c later

/-! Words -/

theorem isCalm_of_isNameChar {c : Char} (name : isNameChar c) : isCalm c := by
  rw [isCalm_iff]
  refine ⟨?_, ?_, ?_, ?_, ?_, ?_⟩ <;>
    · rintro rfl
      cases name

theorem exists_keyword {cs : List Char} {keywords : List (String × Terminal)} {t : Terminal}
    {n : Nat} (found : keyword? cs keywords = some (t, n)) :
    ∃ entry ∈ keywords, ∃ behind, cs = entry.1.toList ++ behind ∧ n = entry.1.toList.length := by
  obtain ⟨entry, first, same⟩ := Option.map_eq_some_iff.mp found
  cases same
  have starts := List.find?_some first
  obtain ⟨behind, rfl⟩ := List.isPrefixOf_iff_prefix.mp starts
  exact ⟨entry, List.mem_of_find?_eq_some first, behind, rfl, String.length_toList.symm⟩

theorem isName_of_mem_keywords {expected : Expected} {entry : String × Terminal}
    (member : entry ∈ keywords expected) :
    entry.1.toList ≠ [] ∧ ∀ d ∈ entry.1.toList, isNameChar d := by
  have all : ∀ entry ∈ keywords expected,
      entry.1.toList ≠ [] ∧ ∀ d ∈ entry.1.toList, isNameChar d := by
    cases expected <;> decide
  exact all entry member

/-- The text of a word. -/
theorem exists_word {expected : Expected} {c : Char} {rest : List Char} {t : Terminal} {n : Nat}
    (start : isNameStart c) (found : word expected (c :: rest) = (t, n)) :
    ∃ more behind, rest = more ++ behind ∧ n = more.length + 1 ∧ ∀ d ∈ c :: more, isNameChar d := by
  have char : isNameChar c := Bool.or_eq_true_iff.mpr (.inl start)
  have named : ∃ more behind, rest = more ++ behind ∧
      ((c :: rest).takeWhile isNameChar).length = more.length + 1 ∧
        ∀ d ∈ c :: more, isNameChar d := by
    refine ⟨rest.takeWhile isNameChar, rest.dropWhile isNameChar,
      List.takeWhile_append_dropWhile.symm, ?_, fun d member => ?_⟩
    · rw [List.takeWhile_cons_of_pos char, List.length_cons]
    · rcases List.mem_cons.mp member with rfl | later
      · exact char
      · exact List.all_eq_true.mp List.all_takeWhile d later
  rw [word_eq] at found
  cases known : keyword? (c :: rest) (keywords expected) with
  | none =>
    simp only [known, Option.getD_none] at found
    cases found
    exact named
  | some pair =>
    simp only [known, Option.getD_some] at found
    cases found
    obtain ⟨entry, member, behind, same, length⟩ := exists_keyword known
    obtain ⟨nonempty, all⟩ := isName_of_mem_keywords member
    obtain ⟨d, more, chars⟩ := List.exists_cons_of_ne_nil nonempty
    rw [chars, List.cons_append] at same
    obtain ⟨rfl, rfl⟩ := List.cons.inj same
    refine ⟨more, behind, rfl, ?_, ?_⟩
    · rw [length, chars, List.length_cons]
    · rwa [chars] at all

/-! Terminals -/

/-- The text of a sign. -/
theorem exists_sign {expected : Expected} {c : Char} {rest : List Char} {t : Terminal} {n : Nat}
    (found : sign? expected c rest.head? = some (t, n)) :
    ∃ more behind, rest = more ++ behind ∧ n = more.length + 1 ∧ Shape t (c :: more) := by
  let fits (pair : Terminal × Nat) : Prop :=
    ∃ more behind, rest = more ++ behind ∧ pair.2 = more.length + 1 ∧ Shape pair.1 (c :: more)
  have none : ∀ pair ∈ (none : Option (Terminal × Nat)), fits pair := nofun
  have one {u : Terminal} (shape : Shape u [c]) : ∀ pair ∈ some (u, 1), fits pair := by
    rintro pair ⟨⟩
    exact ⟨[], rest, rfl, rfl, shape⟩
  have two {u : Terminal} {d : Char} (next : rest.head? = some d) (shape : Shape u [c, d]) :
      ∀ pair ∈ some (u, 2), fits pair := by
    rintro pair ⟨⟩
    obtain ⟨behind, rfl⟩ := List.head?_eq_some_iff.mp next
    exact ⟨[d], behind, rfl, rfl, shape⟩
  have signs : ∀ pair ∈ sign? expected c rest.head?, fits pair := by
    unfold sign?
    repeat' refine forall_mem_ite (fun same => ?_) ?_
    all_goals
      subst_vars
      first
      | exact none
      | exact one (.calm (by decide))
      | exact two (And.left ‹_›) (.calm (by decide))
      | exact two ‹_› (.calm (by decide))
      | exact one (.sharp (by decide) (by decide) (.inl rfl))
      | exact two ‹_› (.sharp (by decide) (by decide) (.inr rfl))
  exact signs _ found

/-- The text of a terminal is the front of what it is found in. -/
theorem exists_shape {expected : Expected} {c : Char} {rest : List Char} {t : Terminal} {n : Nat}
    (found : scan? expected c rest = some (t, n)) :
    ∃ more behind, rest = more ++ behind ∧ n = more.length + 1 ∧ Shape t (c :: more) := by
  unfold scan? at found
  dsimp only at found
  split at found
  · rename_i dollar
    split at found
    · cases found
      refine ⟨rest.takeWhile isNameChar, rest.dropWhile isNameChar,
        List.takeWhile_append_dropWhile.symm, rfl, .calm fun d member => ?_⟩
      rcases List.mem_cons.mp member with rfl | later
      · rw [dollar]
        rfl
      · exact isCalm_of_isNameChar (List.all_eq_true.mp List.all_takeWhile d later)
    · cases found
  · split at found
    · rename_i mark
      obtain ⟨m, length, same⟩ := Option.map_eq_some_iff.mp found
      cases same
      obtain ⟨inner, behind, rfl, rfl, ends, closed⟩ := exists_quoted length
      exact ⟨inner, behind, rfl, rfl, .quoted mark ends closed⟩
    · split at found
      · rename_i digit
        cases found
        have calm := calm_number (c :: rest)
        have bound := numberLength_le (c :: rest)
        have digits : digitCount (c :: rest) ≠ 0 := by
          rw [digitCount, List.takeWhile_cons_of_pos digit, List.length_cons]
          exact Nat.succ_ne_zero _
        have positive : numberLength (c :: rest) ≠ 0 := by
          unfold numberLength
          dsimp only
          omega
        obtain ⟨m, same⟩ := Nat.exists_eq_succ_of_ne_zero positive
        rw [same] at calm bound ⊢
        refine ⟨rest.take m, rest.drop m, (List.take_append_drop m rest).symm, ?_, .calm calm⟩
        rw [List.length_take_of_le (Nat.le_of_succ_le_succ bound)]
      · split at found
        · rename_i start
          obtain ⟨more, behind, same, length, all⟩ := exists_word start (Option.some.inj found)
          exact ⟨more, behind, same, length,
            .calm fun d member => isCalm_of_isNameChar (all d member)⟩
        · exact exists_sign found

theorem shape_of_scan {expected : Expected} {c : Char} {more rest : List Char} {t : Terminal}
    (found : scan? expected c (more ++ rest) = some (t, more.length + 1)) :
    Shape t (c :: more) := by
  obtain ⟨more', _, same, length, shape⟩ := exists_shape found
  obtain ⟨rfl, _⟩ := List.append_inj same (Nat.succ.inj length)
  exact shape

theorem Shape.operator_of_sharp {t : Terminal} {c : Char} {more : List Char}
    (shape : Shape t (c :: more)) (sharp : c = '/' ∨ c = '<' ∨ c = '>') :
    ∃ op, t = operator op ∧ op ≠ .sub := by
  generalize text : c :: more = cs at shape
  cases shape with
  | quoted mark =>
    cases text
    rcases sharp with rfl | rfl | rfl <;> rcases mark with mark | mark <;> cases mark
  | sharp other => exact ⟨_, rfl, other⟩
  | calm all =>
    have calm := all c (text ▸ List.mem_cons_self)
    rcases sharp with rfl | rfl | rfl <;> cases calm

/-! Terminals in front of `>` -/

section Append

variable {behind : List Char}

theorem takeWhile_append_of_other {p : Char → Bool} {d : Char} (other : p d = false)
    (cs : List Char) : (cs ++ d :: behind).takeWhile p = cs.takeWhile p := by
  induction cs with
  | nil => exact List.takeWhile_cons_of_neg (by simp [other])
  | cons c rest ih =>
    rw [List.cons_append, List.takeWhile_cons, List.takeWhile_cons, ih]

theorem isPrefixOf_append_of_not_mem {word : List Char} {d : Char} (other : d ∉ word)
    (cs : List Char) : word.isPrefixOf (cs ++ d :: behind) = word.isPrefixOf cs := by
  induction word generalizing cs with
  | nil => rw [List.isPrefixOf_nil_left, List.isPrefixOf_nil_left]
  | cons w more ih =>
    rw [List.mem_cons, not_or] at other
    cases cs with
    | nil => simp [List.isPrefixOf, Ne.symm other.1]
    | cons c rest => simp [List.isPrefixOf, ih other.2]

theorem digitCount_append (cs : List Char) : digitCount (cs ++ '>' :: behind) = digitCount cs := by
  rw [digitCount, takeWhile_append_of_other (by decide), digitCount]

theorem fractionLength_append (cs : List Char) :
    fractionLength (cs ++ '>' :: behind) = fractionLength cs := by
  cases cs with
  | nil => rfl
  | cons c rest =>
    rw [List.cons_append]
    by_cases point : c = '.'
    · subst point
      rw [fractionLength, fractionLength, digitCount_append]
    · rw [fractionLength, fractionLength]
      · exact fun _ same => point (List.cons.inj same).1
      · exact fun _ same => point (List.cons.inj same).1

theorem exponentLength_append (cs : List Char) :
    exponentLength (cs ++ '>' :: behind) = exponentLength cs := by
  cases cs with
  | nil => rfl
  | cons c rest =>
    cases rest with
    | nil =>
      have none : digitCount ('>' :: behind) = 0 := digitCount_append []
      have signless : ¬('>' = '+' ∨ '>' = '-') := by decide
      simp [exponentLength, none, show digitCount [] = 0 from rfl]
    | cons s more =>
      have part : (if s = '+' ∨ s = '-' then 1 else 0) ≤ (s :: more).length := by
        rw [List.length_cons]
        split <;> omega
      unfold exponentLength
      simp only [List.cons_append]
      rw [← List.cons_append, List.drop_append_of_le_length part, digitCount_append]

theorem numberLength_append (cs : List Char) :
    numberLength (cs ++ '>' :: behind) = numberLength cs := by
  have part := fractionLength_le (cs.drop (digitCount cs))
  have whole := digitCount_le cs
  rw [List.length_drop] at part
  unfold numberLength
  dsimp only
  rw [digitCount_append, List.drop_append_of_le_length whole, fractionLength_append,
    List.drop_append_of_le_length (by omega), exponentLength_append]

theorem word_append (expected : Expected) (cs : List Char) :
    word expected (cs ++ '>' :: behind) = word expected cs := by
  have known : keyword? (cs ++ '>' :: behind) (keywords expected) =
      keyword? cs (keywords expected) := by
    unfold keyword?
    refine congrArg _ (List.find?_congr fun entry member => isPrefixOf_append_of_not_mem ?_ cs)
    exact fun inside => absurd ((isName_of_mem_keywords member).2 '>' inside) (by decide)
  rw [word_eq, word_eq, known, takeWhile_append_of_other (by decide)]

theorem sign?_none (expected : Expected) (c : Char) :
    sign? expected c none = sign? expected c (some '>') := by
  simp [sign?]

/-- What is found of a terminal goes on with no `>` behind it. -/
theorem scan?_append {expected : Expected} {c : Char} {rest : List Char} {t : Terminal} {n : Nat}
    (found : scan? expected c rest = some (t, n)) :
    scan? expected c (rest ++ '>' :: behind) = some (t, n) := by
  unfold scan? at found ⊢
  dsimp only at found ⊢
  rw [takeWhile_append_of_other (by decide), ← List.cons_append, numberLength_append, word_append,
    List.take_append_of_le_length (numberLength_le _)]
  split at found
  · rename_i dollar
    rwa [if_pos dollar]
  · rename_i plain
    rw [if_neg plain]
    split at found
    · rename_i mark
      rw [if_pos mark]
      obtain ⟨m, length, same⟩ := Option.map_eq_some_iff.mp found
      obtain ⟨inner, after, rfl, rfl, ends, closed⟩ := exists_quoted length
      have part : inner.length - 1 ≤ inner.length := Nat.sub_le _ _
      rw [List.take_append_of_le_length part] at same
      rw [List.append_assoc, closed, Option.map_some, List.take_append_of_le_length part, same]
    · rename_i unquoted
      rw [if_neg unquoted]
      split at found
      · rename_i digit
        rwa [if_pos digit]
      · rename_i other
        rw [if_neg other]
        split at found
        · rename_i start
          rwa [if_pos start]
        · rename_i sign
          rw [if_neg sign]
          cases rest with
          | nil => rwa [List.nil_append, List.head?_cons, ← sign?_none]
          | cons d more => exact found

end Append

end Terminal

/-! Texts -/

/-- How a text consists of terminals, each with its own text, and blanks. -/
inductive Cuts : Expected → List Char → List (Terminal × List Char) → Prop
  | nil {expected : Expected} : Cuts expected [] []
  | blank {expected : Expected} {c : Char} {rest : List Char} {found : List (Terminal × List Char)}
      (blank : isExprBlank c) (later : Cuts expected rest found) : Cuts expected (c :: rest) found
  | terminal {expected : Expected} {c : Char} {more rest : List Char} {t : Terminal}
      {found : List (Terminal × List Char)} (filled : isExprBlank c = false)
      (scanned : Terminal.scan? expected c (more ++ rest) = some (t, more.length + 1))
      (later : Cuts t.expected rest found) :
      Cuts expected (c :: (more ++ rest)) ((t, c :: more) :: found)

section Cuts

variable {expected : Expected} {c : Char} {more rest cs : List Char} {t : Terminal}
  {found : List (Terminal × List Char)}

theorem cuts_blank_iff (blank : isExprBlank c) :
    Cuts expected (c :: rest) found ↔ Cuts expected rest found := by
  constructor
  · intro cuts
    cases cuts with
    | blank _ later => exact later
    | terminal filled =>
      rw [blank] at filled
      cases filled
  · exact .blank blank

theorem cuts_terminal_iff (filled : isExprBlank c = false)
    (scanned : Terminal.scan? expected c (more ++ rest) = some (t, more.length + 1)) :
    Cuts expected (c :: (more ++ rest)) found ↔
      ∃ later, found = (t, c :: more) :: later ∧ Cuts t.expected rest later := by
  constructor
  · intro cuts
    generalize whole : c :: (more ++ rest) = cs at cuts
    cases cuts with
    | nil => cases whole
    | blank blank =>
      cases whole
      rw [blank] at filled
      cases filled
    | @terminal _ _ more' rest' _ later _ scanned' behind =>
      obtain ⟨rfl, same⟩ := List.cons.inj whole
      rw [same, scanned'] at scanned
      obtain ⟨rfl, length⟩ := Prod.mk.inj (Option.some.inj scanned)
      obtain ⟨rfl, rfl⟩ := List.append_inj same (Nat.succ.inj length).symm
      exact ⟨later, rfl, behind⟩
  · rintro ⟨later, rfl, behind⟩
    exact .terminal filled scanned behind

/-- A terminal and its text. -/
def Lexeme.piece (l : Lexeme) : Terminal × List Char := (l.terminal, l.text.toList)

/-- A text consists of the terminals that it is cut into, wherever it stands. -/
theorem cuts_iff (position : Position) : Cuts expected cs found ↔
    ∃ ts, Lexemes.ofChars expected position cs = ⟨ts, none⟩ ∧ ts.map Lexeme.piece = found := by
  fun_induction Lexemes.ofChars expected position cs generalizing found with
  | case1 =>
    constructor
    · intro cuts
      cases cuts
      exact ⟨[], rfl, rfl⟩
    · rintro ⟨_, same, rfl⟩
      cases same
      exact .nil
  | case2 expected position c rest blank ih => rw [cuts_blank_iff blank, ih]
  | case3 expected position c rest filled none =>
    constructor
    · intro cuts
      cases cuts with
      | blank blank => exact (filled blank).elim
      | terminal _ scanned =>
        rw [none] at scanned
        cases scanned
    · rintro ⟨_, same, _⟩
      cases same
  | case4 expected position c rest filled t n scanned text following =>
    rename_i ih
    obtain ⟨more, behind, rfl, rfl, _⟩ := Terminal.exists_shape scanned
    rw [cuts_terminal_iff (Bool.eq_false_iff.mpr filled) scanned]
    simp only [text, following, Nat.add_sub_cancel, List.take_left, List.drop_left] at ih ⊢
    have piece : Lexeme.piece ⟨t, String.ofList (c :: more), position⟩ = (t, c :: more) := by
      rw [Lexeme.piece, String.toList_ofList]
    constructor
    · rintro ⟨later, rfl, cuts⟩
      obtain ⟨ts, cut, rfl⟩ := ih.mp cuts
      refine ⟨⟨t, String.ofList (c :: more), position⟩ :: ts, ?_, by rw [List.map_cons, piece]⟩
      rw [cut]
    · rintro ⟨_, same, rfl⟩
      obtain ⟨rfl, stop⟩ := Lexemes.mk.inj same
      rw [List.map_cons, piece]
      exact ⟨_, rfl, ih.mpr ⟨_, by rw [← stop], rfl⟩⟩

/-- A text in front of `>` keeps its terminals. -/
theorem Cuts.append {behind : List Char} {all : List (Terminal × List Char)}
    (front : Cuts expected cs found) (whole : Cuts expected (cs ++ '>' :: behind) all) :
    ∃ expected' later, all = found ++ later ∧ Cuts expected' ('>' :: behind) later := by
  induction front generalizing all with
  | nil => exact ⟨_, all, rfl, whole⟩
  | blank blank _ ih => exact ih ((cuts_blank_iff blank).mp whole)
  | terminal filled scanned _ ih =>
    rw [List.cons_append, List.append_assoc] at whole
    have scanned' := @Terminal.scan?_append behind _ _ _ _ _ scanned
    rw [List.append_assoc] at scanned'
    obtain ⟨others, rfl, cuts⟩ := (cuts_terminal_iff filled scanned').mp whole
    obtain ⟨expected', later, rfl, last⟩ := ih cuts
    exact ⟨expected', later, rfl, last⟩

/-- No text of terminals ends in a backslash. -/
theorem Cuts.getLast?_ne (cuts : Cuts expected cs found) : cs.getLast? ≠ some '\\' := by
  have last {front : List Char} {rest : List Char} (this : front.getLast? ≠ some '\\')
      (behind : rest.getLast? ≠ some '\\') : (front ++ rest).getLast? ≠ some '\\' := by
    rw [List.getLast?_append]
    cases ends : rest.getLast? with
    | none => exact this
    | some d => rwa [ends] at behind
  induction cuts with
  | nil => exact nofun
  | @blank _ c rest _ blank _ ih =>
    refine @last [c] rest ?_ ih
    rintro ⟨⟩
    cases blank
  | @terminal _ c more rest t _ _ scanned _ ih =>
    refine @last (c :: more) rest ?_ ih
    have shape := Terminal.shape_of_scan scanned
    generalize c :: more = text at shape
    cases shape with
    | quoted mark ends =>
      rw [List.getLast?_cons, ends]
      rcases mark with rfl | rfl <;> decide
    | sharp _ sharp equals =>
      rcases equals with rfl | rfl
      · rcases sharp with rfl | rfl | rfl <;> decide
      · exact nofun
    | calm all =>
      intro ends
      have calm := all _ (List.mem_of_getLast? ends)
      cases calm

end Cuts

namespace Expr

/-- Whether a text consists of terminals from which an expression is derived, with no whole number
that has too many digits. -/
structure Composes (cs : List Char) (found : List (Terminal × List Char)) (e : Expr) : Prop where
  cuts : Cuts .operand cs found
  derives : Derives (found.map Prod.fst) (.operand 1 e)
  short : ∀ piece ∈ found, isLongNumber ⟨piece.1, String.ofList piece.2, .start⟩ = false

variable {cs : List Char} {e : Expr}

theorem parseChars_iff : parseChars cs = .ok e ↔ ∃ found, Composes cs found e := by
  have parsed : parse (String.ofList cs) = parseChars cs := by rw [parse, String.toList_ofList]
  rw [← parsed, parse_eq_ok_iff, Forms, Short, Lexemes.terminals, Lexemes.ofText,
    String.toList_ofList]
  have terminals (ts : List Lexeme) :
      (ts.map Lexeme.piece).map Prod.fst = ts.map Lexeme.terminal := by
    rw [List.map_map]
    rfl
  have long (l : Lexeme) :
      isLongNumber ⟨l.piece.1, String.ofList l.piece.2, .start⟩ = isLongNumber l := by
    rw [Lexeme.piece, String.ofList_toList]
    rfl
  constructor
  · rintro ⟨⟨stop, derives⟩, short⟩
    generalize cut : Lexemes.ofChars .operand .start cs = all at stop derives short
    obtain ⟨ts, _⟩ := all
    subst stop
    refine ⟨ts.map Lexeme.piece, (cuts_iff .start).mpr ⟨ts, cut, rfl⟩, ?_, fun piece member => ?_⟩
    · rwa [terminals]
    · obtain ⟨l, here, rfl⟩ := List.mem_map.mp member
      rw [long]
      exact short l here
  · rintro ⟨found, cuts, derives, short⟩
    obtain ⟨ts, cut, rfl⟩ := (cuts_iff .start).mp cuts
    rw [cut]
    refine ⟨⟨rfl, by rwa [terminals] at derives⟩, fun l member => ?_⟩
    rw [← long]
    exact short _ (List.mem_map_of_mem member)

/-- Blanks in front of an expression say nothing. -/
theorem parseChars_blank : parseChars (' ' :: cs) = .ok e ↔ parseChars cs = .ok e := by
  rw [parseChars_iff, parseChars_iff]
  constructor
  · rintro ⟨found, cuts, derives, short⟩
    exact ⟨found, (cuts_blank_iff rfl).mp cuts, derives, short⟩
  · rintro ⟨found, cuts, derives, short⟩
    exact ⟨found, .blank rfl cuts, derives, short⟩

/-- A variable and a sign of equality in front of an expression assign it. -/
theorem parseChars_assign {name : String} (named : isName name.toList) :
    parseChars ('$' :: (name.toList ++ ' ' :: '=' :: ' ' :: cs)) = .ok e ↔
      ∃ value, e = assign name value ∧ parseChars cs = .ok value := by
  obtain ⟨_, _, _, _, all⟩ := isName_iff.mp named
  have variable_ : Terminal.scan? .operand '$' (name.toList ++ ' ' :: '=' :: ' ' :: cs) =
      some (.var name, name.toList.length + 1) := by
    obtain ⟨c, more, same, _, scanned⟩ :=
      @Terminal.scanned_var .operand (' ' :: '=' :: ' ' :: cs) name named (by rintro _ ⟨⟩; rfl)
    cases same
    exact scanned
  have equals : Terminal.scan? .operator '=' ([] ++ ' ' :: cs) = some (.equals, 1) := rfl
  have cut (found : List (Terminal × List Char)) :
      Cuts .operand ('$' :: (name.toList ++ ' ' :: '=' :: ' ' :: cs)) found ↔
        ∃ later, found = (.var name, '$' :: name.toList) :: (.equals, ['=']) :: later ∧
          Cuts .operand cs later := by
    rw [cuts_terminal_iff rfl variable_]
    constructor
    · rintro ⟨others, rfl, behind⟩
      obtain ⟨later, rfl, last⟩ :=
        (cuts_terminal_iff rfl equals).mp ((cuts_blank_iff rfl).mp behind)
      exact ⟨later, rfl, (cuts_blank_iff rfl).mp last⟩
    · rintro ⟨later, rfl, cuts⟩
      exact ⟨_, rfl, .blank rfl ((cuts_terminal_iff rfl equals).mpr ⟨later, rfl, .blank rfl cuts⟩)⟩
  rw [parseChars_iff]
  constructor
  · rintro ⟨found, cuts, derives, short⟩
    obtain ⟨later, rfl, last⟩ := (cut found).mp cuts
    obtain ⟨value, rfl, inside⟩ := derives_assign_iff.mp derives
    refine ⟨value, rfl, parseChars_iff.mpr ⟨later, last, inside, fun piece member => ?_⟩⟩
    exact short piece (List.mem_cons_of_mem _ (List.mem_cons_of_mem _ member))
  · rintro ⟨value, rfl, accepted⟩
    obtain ⟨later, cuts, derives, short⟩ := parseChars_iff.mp accepted
    refine ⟨_, (cut _).mpr ⟨later, rfl, cuts⟩, .assign derives, fun piece member => ?_⟩
    rcases List.mem_cons.mp member with rfl | member
    · rfl
    · rcases List.mem_cons.mp member with rfl | member
      · rfl
      · exact short piece member

/-- Behind an operator stands none that has no operand in front of it. -/
theorem not_beside_operator {op op' : BinaryOp} (other : op' ≠ .sub) :
    ¬Beside (.operator op) (.operator op') := by
  rintro (starts | ⟨_, opens, _⟩)
  · cases op' with
    | sub => exact other rfl
    | _ => cases starts
  · cases opens

/-- An operator has something behind it that does not start with `/`, `<` or `>`. -/
theorem exists_behind_operator {op : BinaryOp} {rest : List Char}
    {found : List (Terminal × List Char)} (cuts : Cuts .operand rest found)
    (beside : (.operator op :: found.map Prod.fst).IsChain Beside)
    (ends : ∀ t ∈ (.operator op :: found.map Prod.fst).getLast?, t.expected = .operator) :
    ∃ d more, rest = d :: more ∧ ¬(d = '/' ∨ d = '<' ∨ d = '>') := by
  cases cuts with
  | nil => cases ends (.operator op) rfl
  | @blank _ d more _ blank =>
    refine ⟨d, more, rfl, ?_⟩
    rintro (rfl | rfl | rfl) <;> cases blank
  | terminal _ scanned =>
    refine ⟨_, _, rfl, fun sharp => ?_⟩
    obtain ⟨op', rfl, other⟩ := (Terminal.shape_of_scan scanned).operator_of_sharp sharp
    exact not_beside_operator other (List.isChain_cons_cons.mp beside).1

/-- No expression goes on with `>` twice, or ends in `>`, behind another one. -/
theorem parseChars_of_closing {behind : List Char} (closes : behind.head?.getD '>' = '>')
    (accepted : parseChars (cs ++ '>' :: behind) = .ok e) (other : Expr) :
    parseChars cs ≠ .ok other := by
  intro front
  obtain ⟨found, cuts, _⟩ := parseChars_iff.mp front
  obtain ⟨all, cuts', derives, _⟩ := parseChars_iff.mp accepted
  obtain ⟨expected, later, rfl, last⟩ := cuts.append cuts'
  have row := row_of_derives derives
  have single : behind.head? ≠ some '=' := by
    intro equals
    rw [equals] at closes
    cases closes
  have alone : Terminal.scan? expected '>' ([] ++ behind) = some (.operator .gt, 1) :=
    if_neg single
  obtain ⟨more, rfl, after⟩ := (cuts_terminal_iff rfl alone).mp last
  cases behind with
  | nil =>
    cases after
    have ends := row.ends (.operator .gt) (by simp)
    cases ends
  | cons d rest =>
    obtain rfl : d = '>' := closes
    cases after with
    | blank blank => cases blank
    | @terminal _ _ text rest t _ _ scanned _ =>
      obtain ⟨op, rfl, other⟩ :=
        (Terminal.shape_of_scan scanned).operator_of_sharp (.inr (.inr rfl))
      have beside := row.beside
      rw [List.map_append] at beside
      exact not_beside_operator other (List.isChain_cons_cons.mp
        (List.isChain_append.mp beside).2.1).1

end Expr
end Parley
