import Parley.Expr.Parser
import Parley.Expr.Printer
import Parley.Proofs.Number.Layout
import Parley.Proofs.Text.Span

/-!
How terminals are written, and that each is scanned as what it is wherever an expression has it.
-/
namespace Parley

open Numeral

theorem digitValue_of_latin {c : Char} (latin : c.toNat < 0x660) (other : isPlainDigit c = false) :
    digitValue? c = none := by
  have far : ∀ first ∈ zeroDigits, first = 0x30 ∨ 0x660 ≤ first := by decide
  have outside : ¬(48 ≤ c.toNat ∧ c.toNat ≤ 57) := by
    rw [← isPlainDigit_iff, other]
    decide
  unfold digitValue?
  split
  · rfl
  · rw [if_neg (by omega), Option.map_eq_none_iff, List.find?_eq_none]
    intro first member within
    simp only [Bool.and_eq_true, decide_eq_true_eq] at within
    rcases far first member with zero | later <;> omega

/-- The characters from `!` to `~` are not blank. -/
theorem isBlank_of_printed {c : Char} (least : 0x21 ≤ c.toNat) (most : c.toNat ≤ 0x7e) :
    isBlank c = false := by
  simp only [isBlank, Bool.or_eq_false_iff, Bool.and_eq_false_iff, decide_eq_false_iff_not,
    beq_eq_false_iff_ne]
  omega

theorem isDecimalDigit_of_isBlank {c : Char} (blank : isBlank c) : isDecimalDigit c = false := by
  have far : ∀ first ∈ zeroDigits, first = 0x30 ∨ (0x660 ≤ first ∧ first + 9 < 0x1680) ∨
      (0x1680 < first ∧ first + 9 < 0x2000) ∨ 0x3000 < first := by decide
  simp only [isBlank, Bool.or_eq_true, Bool.and_eq_true, decide_eq_true_eq, beq_iff_eq] at blank
  have outside : ¬(48 ≤ c.toNat ∧ c.toNat ≤ 57) := by omega
  rw [isDecimalDigit, Option.isSome_eq_false_iff, Option.isNone_iff_eq_none]
  unfold digitValue?
  split
  · rfl
  · rw [if_neg (by omega), Option.map_eq_none_iff, List.find?_eq_none]
    intro first member within
    simp only [Bool.and_eq_true, decide_eq_true_eq] at within
    rcases far first member with latin | low | middle | high <;> omega

theorem isExprBlank_of_not_isBlank {c : Char} (filled : isBlank c = false) :
    isExprBlank c = false := by
  by_cases blank : isExprBlank c
  · simp only [isExprBlank, Bool.or_eq_true, beq_iff_eq] at blank
    rcases blank with (((rfl | rfl) | rfl) | rfl) | rfl <;> cases filled
  · exact Bool.eq_false_iff.mpr blank

theorem isNameStart_iff {c : Char} : isNameStart c ↔
    c = '_' ∨ (97 ≤ c.toNat ∧ c.toNat ≤ 122) ∨ (65 ≤ c.toNat ∧ c.toNat ≤ 90) := by
  simp only [isNameStart, Bool.or_eq_true, Bool.and_eq_true, decide_eq_true_eq, beq_iff_eq,
    or_assoc]
  rfl

theorem isDecimalDigit_of_isNameStart {c : Char} (start : isNameStart c) :
    isDecimalDigit c = false := by
  have ascii : c.toNat < 0x660 ∧ ¬(48 ≤ c.toNat ∧ c.toNat ≤ 57) := by
    rcases isNameStart_iff.mp start with rfl | small | capital
    · decide
    · omega
    · omega
  have other : isPlainDigit c = false := by
    rw [Bool.eq_false_iff, Ne, isPlainDigit_iff]
    exact ascii.2
  rw [isDecimalDigit, digitValue_of_latin ascii.1 other]
  rfl

theorem isName_iff {cs : List Char} :
    isName cs ↔ ∃ c more, cs = c :: more ∧ isNameStart c ∧ ∀ d ∈ cs, isNameChar d := by
  cases cs with
  | nil => simp [isName]
  | cons c more =>
    constructor
    · intro name
      obtain ⟨start, all⟩ := Bool.and_eq_true_iff.mp name
      refine ⟨c, more, rfl, start, fun d member => ?_⟩
      rcases List.mem_cons.mp member with rfl | later
      · exact Bool.or_eq_true_iff.mpr (.inl start)
      · exact List.all_eq_true.mp all d later
    · rintro ⟨_, _, same, start, all⟩
      cases same
      rw [isName, start, Bool.true_and, List.all_eq_true]
      exact fun d member => all d (List.mem_cons_of_mem c member)

namespace Terminal

/-- How a terminal is written. -/
def spelling : Terminal → List Char
  | var word => '$' :: word.toList
  | name word => word.toList
  | literal l => l.toText.toList
  | operator op => op.symbol.toList
  | bang => ['!']
  | equals => ['=']
  | dot => ['.']
  | comma => [',']
  | colon => [':']
  | opening .round => ['(']
  | opening .square => ['[']
  | opening .curly => ['\x7b']
  | closing .round => [')']
  | closing .square => [']']
  | closing .curly => ['\x7d']

/-- Whether some text is scanned as a terminal and not too long for that. -/
def Fit : Terminal → Prop
  | var word | name word => isName word.toList
  | literal (.int n) => (natChars n).length ≤ maxDigits
  | literal (.float x) => x.isFinite ∧ x.isNegative = false
  | _ => True

/-- Whether a terminal is scanned where something is expected. -/
def Due (expected : Expected) : Terminal → Prop
  | name _ => expected = .member
  | literal .null | literal (.bool _) | bang => expected = .operand
  | operator .among | operator .ne => expected = .operator
  | _ => True

/-- Whether what follows a terminal does not go on with it. -/
def Apart : Terminal → List Char → Prop
  | var _, rest | name _, rest => ∀ c ∈ rest.head?, isNameChar c = false
  | literal (.int _), rest | literal (.float _), rest => Ends rest
  | operator .sub, _ => True
  | operator _, rest => rest.head? = some ' '
  | equals, rest => rest.head? ≠ some '='
  | _, _ => True

/-! Quoted texts -/

/-- A character that takes none along is no backslash. -/
theorem ne_backslash {c : Char} {rest : List Char} (last : c = '\\' → rest = [] → False)
    (front : ∀ d more, c = '\\' → rest = d :: more → False) : c ≠ '\\' := by
  intro same
  cases rest with
  | nil => exact last same rfl
  | cons d more => exact front d more same rfl

theorem quotedLength_ordinary {quote c : Char} {rest : List Char} (other : c ≠ quote)
    (slash : c ≠ '\\') :
    quotedLength? quote (c :: rest) = (quotedLength? quote rest).map (· + 1) := by
  rw [quotedLength?, if_neg other]
  · exact fun same _ => slash same
  · exact fun _ _ same _ => slash same

/-- Between quotes a character stands as it is or as a backslash and a letter or sign, which is read
as the character. -/
theorem quoteChar_cases (c : Char) :
    (∃ d ∈ ['\\', '"', 'n', 't'], quoteChar c = ['\\', d] ∧
      ∀ rest, unescape ('\\' :: d :: rest) = c :: unescape rest) ∨
    quoteChar c = [c] ∧ c ≠ '\\' ∧ c ≠ '"' ∧ c ≠ '\n' := by
  by_cases slash : c = '\\'
  · subst slash
    exact .inl ⟨'\\', by simp, rfl, fun _ => rfl⟩
  by_cases quote : c = '"'
  · subst quote
    exact .inl ⟨'"', by simp, rfl, fun _ => rfl⟩
  by_cases feed : c = '\n'
  · subst feed
    exact .inl ⟨'n', by simp, rfl, fun _ => rfl⟩
  by_cases tab : c = '\t'
  · subst tab
    exact .inl ⟨'t', by simp, rfl, fun _ => rfl⟩
  refine .inr ⟨?_, slash, quote, feed⟩
  rw [quoteChar, if_neg slash, if_neg quote, if_neg feed, if_neg tab]

theorem quotedLength_quoteChar (c : Char) (rest : List Char) :
    quotedLength? '"' (quoteChar c ++ rest) =
      (quotedLength? '"' rest).map (· + (quoteChar c).length) := by
  rcases quoteChar_cases c with ⟨d, among, same, _⟩ | ⟨same, slash, quote, _⟩
  · rw [same]
    simp only [List.mem_cons, List.not_mem_nil, or_false] at among
    rcases among with rfl | rfl | rfl | rfl <;> rfl
  · rw [same, List.singleton_append, quotedLength_ordinary quote slash]
    rfl

theorem unescape_quoteChar (c : Char) (rest : List Char) :
    unescape (quoteChar c ++ rest) = c :: unescape rest := by
  rcases quoteChar_cases c with ⟨d, _, same, read⟩ | ⟨same, slash, _⟩
  · rw [same]
    exact read rest
  · rw [same, List.singleton_append, unescape]
    exact fun _ _ first _ => slash first

theorem quotedLength_quoted (cs rest : List Char) :
    quotedLength? '"' (cs.flatMap quoteChar ++ '"' :: rest) =
      some ((cs.flatMap quoteChar).length + 1) := by
  induction cs with
  | nil => rfl
  | cons c more ih =>
    rw [List.flatMap_cons, List.append_assoc, quotedLength_quoteChar, ih, Option.map_some,
      List.length_append]
    congr 1
    omega

theorem unescape_quoted (cs : List Char) : unescape (cs.flatMap quoteChar) = cs := by
  induction cs with
  | nil => rfl
  | cons c more ih => rw [List.flatMap_cons, unescape_quoteChar, ih]

/-! What is scanned -/

theorem fit_of_keyword {cs : List Char} {keywords : List (String × Terminal)} {t : Terminal}
    {n : Nat}
    (fit : ∀ entry ∈ keywords, entry.2.Fit) (found : keyword? cs keywords = some (t, n)) :
    t.Fit := by
  obtain ⟨entry, first, same⟩ := Option.map_eq_some_iff.mp found
  cases same
  exact fit entry (List.mem_of_find?_eq_some first)

/-- The words that are no names where something is expected. -/
def keywords : Expected → List (String × Terminal)
  | .operand => [("true", literal (.bool true)), ("false", literal (.bool false)),
      ("null", literal .null)]
  | .operator => [("in", operator .among)]
  | .member => []

theorem word_eq (expected : Expected) (cs : List Char) : word expected cs =
    (keyword? cs (keywords expected)).getD
      (name (String.ofList (cs.takeWhile isNameChar)), (cs.takeWhile isNameChar).length) := by
  cases expected <;> rfl

theorem fit_of_mem_keywords {expected : Expected} {entry : String × Terminal}
    (member : entry ∈ keywords expected) : entry.2.Fit := by
  cases expected with
  | operand =>
    simp only [keywords, List.mem_cons, List.not_mem_nil, or_false] at member
    rcases member with rfl | rfl | rfl <;> trivial
  | operator =>
    cases List.mem_singleton.mp member
    trivial
  | member => cases member

theorem fit_of_word {expected : Expected} {c : Char} {rest : List Char} {t : Terminal} {n : Nat}
    (start : isNameStart c) (scanned : word expected (c :: rest) = (t, n)) : t.Fit := by
  have named : (name (String.ofList ((c :: rest).takeWhile isNameChar))).Fit := by
    have char : isNameChar c := Bool.or_eq_true_iff.mpr (.inl start)
    change isName _
    rw [String.toList_ofList, List.takeWhile_cons_of_pos char, isName, start, Bool.true_and]
    exact List.all_takeWhile
  rw [word_eq] at scanned
  cases found : keyword? (c :: rest) (keywords expected) with
  | none =>
    simp only [found, Option.getD_none] at scanned
    cases scanned
    exact named
  | some pair =>
    simp only [found, Option.getD_some] at scanned
    cases scanned
    exact fit_of_keyword (fun entry => fit_of_mem_keywords) found

theorem forall_mem_ite {α : Type} {p : Prop} [Decidable p] {a b : Option α} {fits : α → Prop}
    (one : p → ∀ x ∈ a, fits x) (other : ∀ x ∈ b, fits x) : ∀ x ∈ (if p then a else b), fits x := by
  split
  · rename_i holds
    exact one holds
  · exact other

theorem fit_of_sign {expected : Expected} {c : Char} {next : Option Char} {t : Terminal} {n : Nat}
    (scanned : sign? expected c next = some (t, n)) : t.Fit := by
  have signs : ∀ pair ∈ sign? expected c next, pair.1.Fit := by
    unfold sign?
    repeat' first | refine forall_mem_ite ?_ ?_ | intro _
    all_goals
      rename_i found
      cases found
    all_goals trivial
  exact signs _ scanned

theorem length_natChars_digitsValue (digits : List Char) (plain : ∀ c ∈ digits, isPlainDigit c) :
    (natChars (digitsValue (digitsOf digits))).length ≤ max 1 digits.length := by
  cases digits with
  | nil => decide
  | cons d more =>
    have le := length_natChars_le (List.cons_ne_nil d more) plain rfl
    omega

/-- The literal that a numeral writes is fit unless it is not finite or has too many digits. -/
theorem fit_numberLiteral {cs : List Char}
    (finite : ∀ x, numberLiteral cs = .float x → x.isFinite)
    (short : ∀ n, numberLiteral cs = .int n → cs.length ≤ maxDigits) :
    (literal (numberLiteral cs)).Fit := by
  unfold numberLiteral at finite short ⊢
  dsimp only at finite short ⊢
  split
  · rename_i marked
    rw [if_pos marked] at finite
    refine ⟨finite _ rfl, ?_⟩
    cases decimal? (plainDigits cs) with
    | none => rfl
    | some d => exact Decimal.isNegative_nearest false d
  · rename_i unmarked
    rw [if_neg unmarked] at short
    have bound := short _ rfl
    have length := length_natChars_digitsValue ((plainDigits cs).takeWhile isPlainDigit)
      (List.all_eq_true.mp List.all_takeWhile)
    have part : ((plainDigits cs).takeWhile isPlainDigit).length ≤ cs.length := by
      have prefixed := (List.takeWhile_prefix (l := plainDigits cs) isPlainDigit).length_le
      rwa [plainDigits, List.length_map] at prefixed
    have digits : 1 ≤ maxDigits := by decide
    change (natChars (digitsValue (digitsOf _))).length ≤ maxDigits
    omega

/-- A scanned terminal is fit unless it is a number that is not finite or has too many digits. -/
theorem fit_of_scan {expected : Expected} {c : Char} {rest : List Char} {t : Terminal} {n : Nat}
    (scanned : scan? expected c rest = some (t, n))
    (finite : ∀ x, t = literal (.float x) → x.isFinite)
    (short : ∀ m, t = literal (.int m) → (c :: rest.take (n - 1)).length ≤ maxDigits) : t.Fit := by
  unfold scan? at scanned
  dsimp only at scanned
  split at scanned
  · split at scanned
    · rename_i named
      cases scanned
      change isName _
      rwa [String.toList_ofList]
    · cases scanned
  · split at scanned
    · obtain ⟨length, _, same⟩ := Option.map_eq_some_iff.mp scanned
      cases same
      trivial
    · split at scanned
      · cases scanned
        refine fit_numberLiteral (fun x same => finite x (congrArg literal same)) ?_
        intro m same
        have bound := short m (congrArg literal same)
        simp only [List.length_cons, List.length_take] at bound ⊢
        omega
      · split at scanned
        · rename_i start
          exact fit_of_word start (Option.some.inj scanned)
        · exact fit_of_sign scanned

/-! Scanning what is written -/

/-- Whether a terminal is scanned from its spelling, which starts with no blank, in front of some
text. -/
def Scanned (expected : Expected) (rest : List Char) (t : Terminal) : Prop :=
  ∃ c more, t.spelling = c :: more ∧ isBlank c = false ∧
    scan? expected c (more ++ rest) = some (t, more.length + 1)

theorem isBlank_of_isNameStart {c : Char} (start : isNameStart c) : isBlank c = false := by
  have range : 0x41 ≤ c.toNat ∧ c.toNat ≤ 0x7a := by
    rcases isNameStart_iff.mp start with rfl | small | capital
    · decide
    · omega
    · omega
  exact isBlank_of_printed (by omega) (by omega)

theorem sign?_of_isBlank {expected : Expected} {c : Char} {next : Option Char} (blank : isBlank c) :
    sign? expected c next = none := by
  have other {d : Char} (filled : isBlank d = false) : c ≠ d := by
    rintro rfl
    rw [filled] at blank
    cases blank
  unfold sign?
  repeat' rw [if_neg (other rfl)]

/-- No terminal starts with a blank. -/
theorem scan?_of_isBlank {expected : Expected} {c : Char} {rest : List Char} (blank : isBlank c) :
    scan? expected c rest = none := by
  have other {d : Char} (filled : isBlank d = false) : c ≠ d := by
    rintro rfl
    rw [filled] at blank
    cases blank
  have word : ¬isNameStart c := by
    intro start
    rw [isBlank_of_isNameStart start] at blank
    cases blank
  have quote : ¬(c = '"' ∨ c = '\'') := by
    rintro (rfl | rfl) <;> cases blank
  unfold scan?
  rw [if_neg (other rfl), if_neg quote, if_neg (by simp [isDecimalDigit_of_isBlank blank]),
    if_neg word, sign?_of_isBlank blank]

theorem scanned_var {expected : Expected} {rest : List Char} {name : String}
    (fit : (var name).Fit) (apart : (var name).Apart rest) : Scanned expected rest (var name) := by
  obtain ⟨_, _, _, _, all⟩ := isName_iff.mp fit
  refine ⟨'$', name.toList, rfl, rfl, ?_⟩
  have written : (name.toList ++ rest).takeWhile isNameChar = name.toList :=
    takeWhile_append_of_stop all apart
  have named : isName name.toList := fit
  simp only [scan?, if_true, written, named, String.ofList_toList]

theorem scanned_name {rest : List Char} {written : String} (fit : (name written).Fit)
    (apart : (name written).Apart rest) : Scanned .member rest (name written) := by
  obtain ⟨c, more, same, start, all⟩ := isName_iff.mp fit
  refine ⟨c, more, same, isBlank_of_isNameStart start, ?_⟩
  have run : (c :: (more ++ rest)).takeWhile isNameChar = c :: more := by
    rw [← List.cons_append, ← same]
    exact takeWhile_append_of_stop all apart
  have dollar : c ≠ '$' := by
    rintro rfl
    cases start
  have quote : ¬(c = '"' ∨ c = '\'') := by
    rintro (rfl | rfl) <;> cases start
  have digit := isDecimalDigit_of_isNameStart start
  simp only [scan?, if_neg dollar, if_neg quote, digit, start, word, run, Option.getD_none,
    Bool.false_eq_true, if_false, if_true, List.length_cons]
  rw [← same, String.ofList_toList]

/-- A numeral is scanned as the literal that it writes. -/
theorem scan?_layout (expected : Expected) {rest : List Char} (l : Layout) (ends : Ends rest) :
    ∃ c more, l.chars = c :: more ∧ isBlank c = false ∧
      scan? expected c (more ++ rest) =
        some (literal (numberLiteral l.chars), more.length + 1) := by
  obtain ⟨c, digits, whole⟩ := List.exists_cons_of_ne_nil l.some_whole
  have plain : isPlainDigit c := l.whole_digits c (by simp [whole])
  have same : l.chars = c :: (digits ++ (l.partChars ++ l.exponentChars)) := by
    rw [Layout.chars, whole, List.cons_append]
  refine ⟨c, _, same, ?_, ?_⟩
  · have range := isPlainDigit_iff.mp plain
    exact isBlank_of_printed (by omega) (by omega)
  · have dollar : c ≠ '$' := by
      rintro rfl
      cases plain
    have quote : ¬(c = '"' ∨ c = '\'') := by
      rintro (rfl | rfl) <;> cases plain
    have length := l.numberLength_chars ends
    have front : (l.chars ++ rest).take l.chars.length = l.chars := List.take_left
    have count : l.chars.length = (digits ++ (l.partChars ++ l.exponentChars)).length + 1 := by
      rw [same, List.length_cons]
    simp only [scan?, if_neg dollar, if_neg quote, isDecimalDigit_of_isPlainDigit plain, if_true]
    rw [← List.cons_append, ← same, length, front, count]

theorem scanned_int {expected : Expected} {rest : List Char} {n : Nat} (ends : Ends rest) :
    Scanned expected rest (literal (.int n)) := by
  have digits := natChars_plain n
  let l : Layout := .fixed (natChars n) [] (natChars_ne_nil n) digits (by simp)
  have chars : l.chars = natChars n := by simp [l, Layout.fixed, Layout.chars, Layout.partChars,
    Layout.exponentChars]
  have unmarked : l.chars.any (fun c => c == '.' || c == 'e' || c == 'E') = false := by
    rw [chars, List.any_eq_false]
    intro c member mark
    simp only [Bool.or_eq_true, beq_iff_eq] at mark
    rcases mark with (rfl | rfl) | rfl <;> cases digits _ member
  have value : numberLiteral l.chars = .int n := by
    rw [numberLiteral, unmarked, l.plainDigits_chars, chars, digitRun_all digits,
      digitsValue_natChars]
    rfl
  obtain ⟨c, more, same, blank, scanned⟩ := scan?_layout expected l ends
  rw [value] at scanned
  refine ⟨c, more, ?_, blank, scanned⟩
  rw [← same, chars, spelling, Literal.toText, natText, String.toList_ofList]

theorem scanned_float {expected : Expected} {rest : List Char} {x : Binary64}
    (fit : (literal (.float x)).Fit) (ends : Ends rest) :
    Scanned expected rest (literal (.float x)) := by
  obtain ⟨finite, positive⟩ := fit
  cases x with
  | nan => cases finite
  | infinite negative => cases finite
  | finite negative significand power h =>
    cases positive
    obtain ⟨l, marked, chars, nearest⟩ := Binary64.exists_layout h
    obtain ⟨c, more, same, blank, scanned⟩ := scan?_layout expected l ends
    rw [l.numberLiteral_chars marked, nearest] at scanned
    refine ⟨c, more, ?_, blank, scanned⟩
    rw [← same, ← chars, spelling, Literal.toText, Binary64.text, String.toList_ofList]

theorem scanned_text {expected : Expected} {rest : List Char} {s : String} :
    Scanned expected rest (literal (.text s)) := by
  refine ⟨'"', s.toList.flatMap quoteChar ++ ['"'], ?_, rfl, ?_⟩
  · rw [spelling, Literal.toText, quoteText, String.toList_ofList, List.append_assoc]
    rfl
  · have length := quotedLength_quoted s.toList rest
    have dollar : ('"' : Char) ≠ '$' := by decide
    simp only [scan?, if_neg dollar, true_or, if_true, List.append_assoc, List.singleton_append,
      length, Option.map_some, Nat.add_sub_cancel, List.take_left, unescape_quoted,
      String.ofList_toList, List.length_append, List.length_singleton]

theorem scanned_operator {expected : Expected} {rest : List Char} {op : BinaryOp}
    (due : (operator op).Due expected) (apart : (operator op).Apart rest) :
    Scanned expected rest (operator op) := by
  cases op with
  | or => exact ⟨'|', ['|'], rfl, rfl, rfl⟩
  | and => exact ⟨'&', ['&'], rfl, rfl, rfl⟩
  | eq => exact ⟨'=', ['='], rfl, rfl, rfl⟩
  | ne =>
    cases due
    exact ⟨'!', ['='], rfl, rfl, rfl⟩
  | lt =>
    have single : rest.head? ≠ some '=' := by
      rw [show rest.head? = some ' ' from apart]
      decide
    exact ⟨'<', [], rfl, rfl, if_neg single⟩
  | le => exact ⟨'<', ['='], rfl, rfl, rfl⟩
  | gt =>
    have single : rest.head? ≠ some '=' := by
      rw [show rest.head? = some ' ' from apart]
      decide
    exact ⟨'>', [], rfl, rfl, if_neg single⟩
  | ge => exact ⟨'>', ['='], rfl, rfl, rfl⟩
  | among =>
    cases due
    exact ⟨'i', ['n'], rfl, rfl, rfl⟩
  | add => exact ⟨'+', [], rfl, rfl, rfl⟩
  | sub => exact ⟨'-', [], rfl, rfl, rfl⟩
  | mul => exact ⟨'*', [], rfl, rfl, rfl⟩
  | div => exact ⟨'/', [], rfl, rfl, rfl⟩
  | mod => exact ⟨'%', [], rfl, rfl, rfl⟩

/-- Each fit terminal is scanned where it is due from its spelling and nothing else. -/
theorem scanned_of_fit {expected : Expected} {rest : List Char} {t : Terminal} (fit : t.Fit)
    (due : t.Due expected) (apart : t.Apart rest) : Scanned expected rest t := by
  cases t with
  | var => exact scanned_var fit apart
  | name =>
    cases due
    exact scanned_name fit apart
  | literal l =>
    cases l with
    | null =>
      cases due
      exact ⟨'n', ['u', 'l', 'l'], rfl, rfl, rfl⟩
    | bool b =>
      cases due
      cases b
      · exact ⟨'f', ['a', 'l', 's', 'e'], rfl, rfl, rfl⟩
      · exact ⟨'t', ['r', 'u', 'e'], rfl, rfl, rfl⟩
    | int => exact scanned_int apart
    | float => exact scanned_float fit apart
    | text => exact scanned_text
  | operator => exact scanned_operator due apart
  | bang =>
    cases due
    have alone : ¬(rest.head? = some '=' ∧ Expected.operand ≠ .operand) := fun two => two.2 rfl
    exact ⟨'!', [], rfl, rfl, if_neg alone⟩
  | equals => exact ⟨'=', [], rfl, rfl, if_neg apart⟩
  | dot => exact ⟨'.', [], rfl, rfl, rfl⟩
  | comma => exact ⟨',', [], rfl, rfl, rfl⟩
  | colon => exact ⟨':', [], rfl, rfl, rfl⟩
  | opening bracket =>
    cases bracket
    · exact ⟨'(', [], rfl, rfl, rfl⟩
    · exact ⟨'[', [], rfl, rfl, rfl⟩
    · exact ⟨'\x7b', [], rfl, rfl, rfl⟩
  | closing bracket =>
    cases bracket
    · exact ⟨')', [], rfl, rfl, rfl⟩
    · exact ⟨']', [], rfl, rfl, rfl⟩
    · exact ⟨'\x7d', [], rfl, rfl, rfl⟩

end Terminal

/-- What the text of an expression is put together from. -/
inductive Ink where
  | blank
  | mark (t : Terminal)

namespace Ink

def chars : Ink → List Char
  | blank => [' ']
  | mark t => t.spelling

def terminal? : Ink → Option Terminal
  | blank => none
  | mark t => some t

/-- Whether all terminals of a text are scanned as they are written. -/
def Legible : Expected → List Ink → Prop
  | _, [] => True
  | expected, blank :: rest => Legible expected rest
  | expected, mark t :: rest =>
      t.Fit ∧ t.Due expected ∧ t.Apart (rest.flatMap chars) ∧ Legible t.expected rest

theorem isLongNumber_spelling {t : Terminal} (fit : t.Fit) (position : Position) :
    Expr.isLongNumber ⟨t, String.ofList t.spelling, position⟩ = false := by
  unfold Expr.isLongNumber
  dsimp only
  split
  · rename_i n
    have short : (natChars n).length ≤ maxDigits := fit
    rw [Terminal.spelling, Literal.toText, natText, String.ofList_toList, String.length_ofList]
    exact decide_eq_false (Nat.not_lt.mpr short)
  · rfl

theorem exists_filled {inks : List Ink} {expected : Expected} {t : Terminal}
    (legible : Legible expected inks) (member : mark t ∈ inks) :
    ∃ c ∈ inks.flatMap chars, isBlank c = false := by
  induction inks generalizing expected with
  | nil => cases member
  | cons ink rest ih =>
    cases ink with
    | blank =>
      obtain ⟨c, later, filled⟩ := ih legible (by simpa using member)
      exact ⟨c, by simp [later], filled⟩
    | mark u =>
      obtain ⟨fit, due, apart, _⟩ := legible
      obtain ⟨c, more, written, filled, _⟩ := Terminal.scanned_of_fit fit due apart
      exact ⟨c, by simp [chars, written], filled⟩

/-- A legible text is cut into its terminals. -/
theorem lexemes_of_legible {inks : List Ink} {expected : Expected} (position : Position)
    (legible : Legible expected inks) :
    ∃ lexemes, Lexemes.ofChars expected position (inks.flatMap chars) = ⟨lexemes, none⟩ ∧
      lexemes.map Lexeme.terminal = inks.filterMap terminal? ∧
        ∀ l ∈ lexemes, Expr.isLongNumber l = false := by
  induction inks generalizing expected position with
  | nil => exact ⟨[], by simp [Lexemes.ofChars], rfl, by simp⟩
  | cons ink rest ih =>
    cases ink with
    | blank =>
      have space : isExprBlank ' ' = true := rfl
      obtain ⟨lexemes, cut, same, short⟩ := ih (position.next ' ') legible
      refine ⟨lexemes, ?_, same, short⟩
      rw [List.flatMap_cons, chars, List.singleton_append, Lexemes.ofChars, if_pos space, cut]
    | mark t =>
      obtain ⟨fit, due, apart, later⟩ := legible
      obtain ⟨c, more, written, filled, scanned⟩ := Terminal.scanned_of_fit fit due apart
      obtain ⟨lexemes, cut, same, short⟩ := ih (position.after (c :: more)) later
      refine ⟨⟨t, String.ofList t.spelling, position⟩ :: lexemes, ?_, ?_, ?_⟩
      · rw [List.flatMap_cons, chars, written, List.cons_append, Lexemes.ofChars,
          isExprBlank_of_not_isBlank filled, if_neg (by decide), scanned]
        simp only [Nat.add_sub_cancel, List.take_left, List.drop_left, cut]
      · rw [List.map_cons, same]
        rfl
      · intro l member
        rcases List.mem_cons.mp member with rfl | other
        · exact isLongNumber_spelling fit position
        · exact short l other

end Ink

theorem lexemes_of_blank {expected : Expected} {position : Position} {cs : List Char}
    (blank : cs.all isBlank) : (Lexemes.ofChars expected position cs).lexemes = [] := by
  fun_induction Lexemes.ofChars expected position cs with
  | case1 => rfl
  | case2 _ _ c rest _ ih => exact ih (Bool.and_eq_true_iff.mp blank).2
  | case3 => rfl
  | case4 _ _ c rest _ _ _ scanned =>
    rw [Terminal.scan?_of_isBlank (Bool.and_eq_true_iff.mp blank).1] at scanned
    cases scanned

/-- All terminals that a text is cut into are scanned somewhere. -/
theorem exists_scan_of_mem {expected : Expected} {position : Position} {cs : List Char} {l : Lexeme}
    (member : l ∈ (Lexemes.ofChars expected position cs).lexemes) :
    ∃ expected c rest n, Terminal.scan? expected c rest = some (l.terminal, n) ∧
      l.text = String.ofList (c :: rest.take (n - 1)) := by
  fun_induction Lexemes.ofChars expected position cs with
  | case1 => cases member
  | case2 _ _ _ _ _ ih => exact ih member
  | case3 => cases member
  | case4 expected position c rest _ terminal length scanned _ _ ih =>
    rcases List.mem_cons.mp member with rfl | later
    · exact ⟨expected, c, rest, length, scanned, rfl⟩
    · exact ih later

/-- A terminal of a text is fit unless it is a number that is not finite or has too many digits. -/
theorem fit_of_mem {expected : Expected} {position : Position} {cs : List Char} {l : Lexeme}
    (member : l ∈ (Lexemes.ofChars expected position cs).lexemes)
    (finite : ∀ x, l.terminal = .literal (.float x) → x.isFinite)
    (short : Expr.isLongNumber l = false) : l.terminal.Fit := by
  obtain ⟨expected', c, rest, n, scanned, text⟩ := exists_scan_of_mem member
  refine Terminal.fit_of_scan scanned finite fun m whole => ?_
  simp only [Expr.isLongNumber, whole, decide_eq_false_iff_not, Nat.not_lt] at short
  rwa [text, String.length_ofList] at short

end Parley
