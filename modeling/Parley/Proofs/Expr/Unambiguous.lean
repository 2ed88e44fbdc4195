import Parley.Proofs.Expr.RoundTrip

/-!
What is read is what the grammar derives, and no row of terminals has two trees. So the levels of
the operators settle how a row is grouped. A text is read if its terminals are derived and none of
its whole numbers has too many digits; a number that has too many may be reported before a place
where no expression goes on.
-/
namespace Parley

open Numeral

/-- The terminals of a text. -/
def Lexemes.ofText (text : String) : Lexemes := .ofChars .operand .start text.toList

def Lexemes.terminals (found : Lexemes) : List Terminal := found.lexemes.map Lexeme.terminal

def UnaryOp.terminal : UnaryOp → Terminal
  | .not => .bang
  | .neg => .operator .sub

namespace Expr

/-! Trees and rows of terminals -/

theorem ofLexemes_eq_ok_iff {ts : List Lexeme} {e : Expr} :
    ofLexemes ts = .ok e ↔ Derives (ts.map Lexeme.terminal) (.operand 1 e) :=
  ⟨derives_of_ofLexemes, ofLexemes_of_derives⟩

/-- A terminal without a place. -/
def bare (t : Terminal) : Lexeme := ⟨t, "", .start⟩

theorem terminals_bare (ts : List Terminal) : (ts.map bare).map Lexeme.terminal = ts := by
  rw [List.map_map]
  exact List.map_id ts

theorem Derives.level_le {ts : List Terminal} {level : Nat} {e : Expr}
    (derives : Derives ts (.operand level e)) : level ≤ 9 := by
  cases derives with
  | @binary op => exact Nat.le_trans (level_bounds op).2 (by decide)
  | tighter bound _ => exact Nat.le_of_lt bound
  | _ => omega

/-- What is derived at some level stands alone. -/
theorem Derives.alone {ts : List Terminal} {level : Nat} {e : Expr}
    (derives : Derives ts (.operand level e)) : Derives ts (.operand 1 e) := by
  cases level with
  | succ level => exact derives.looser (Nat.le_add_left 1 level) derives.level_le
  | zero =>
    generalize zero : (0 : Nat) = least at derives
    cases derives with
    | @binary op =>
      have := level_bounds op
      omega
    | tighter _ inside =>
      subst zero
      exact inside
    | _ => cases zero

/-- Whether an expression is the one that the grammar derives from some terminals. -/
def Only (ts : List Terminal) (e : Expr) : Prop :=
  ∀ other, Derives ts (.operand 1 other) ↔ other = e

theorem Derives.only {ts : List Terminal} {level : Nat} {e : Expr}
    (derives : Derives ts (.operand level e)) : Only ts e := by
  intro other
  constructor
  · intro derives'
    have taken : ofLexemes (ts.map bare) = .ok e :=
      ofLexemes_of_derives (by rw [terminals_bare]; exact derives.alone)
    have taken' : ofLexemes (ts.map bare) = .ok other :=
      ofLexemes_of_derives (by rw [terminals_bare]; exact derives')
    exact Except.ok.inj (taken'.symm.trans taken)
  · rintro rfl
    exact derives.alone

/-! Grouping -/

theorem Derives.unary {op : UnaryOp} {ts : List Terminal} {e : Expr}
    (derives : Derives ts (.operand 7 e)) :
    Derives (op.terminal :: ts) (.operand 7 (unary op e)) := by
  cases op with
  | not => exact .not derives
  | neg => exact .neg derives

/-- An operator with the operand behind it. -/
structure Link where
  op : BinaryOp
  ts : List Terminal
  operand : Expr

def Link.terminals (link : Link) : List Terminal := .operator link.op :: link.ts

def Link.Fits (level : Nat) (link : Link) : Prop :=
  link.op.level = level ∧ Derives link.ts (.operand (level + 1) link.operand)

/-- The tree of operands that are grouped to the left. -/
def groupLeft (first : Expr) (links : List Link) : Expr :=
  links.foldl (fun left link => binary link.op left link.operand) first

theorem derives_groupLeft {level : Nat} (chains : level ≠ 4) {first : List Terminal} {e : Expr}
    {links : List Link} (derives : Derives first (.operand level e))
    (fits : ∀ link ∈ links, link.Fits level) :
    Derives (first ++ links.flatMap Link.terminals) (.operand level (groupLeft e links)) := by
  induction links generalizing first e with
  | nil => simpa [groupLeft] using derives
  | cons link rest ih =>
    obtain ⟨same, operand⟩ := fits link List.mem_cons_self
    have groups : leftLevel link.op = level := by rw [leftLevel, same, if_neg chains]
    have both : Derives (first ++ link.terminals)
        (.operand level (binary link.op e link.operand)) := by
      rw [← same] at operand ⊢
      exact .binary (by rw [groups]; exact derives) operand
    have whole := ih both fun other member => fits other (List.mem_cons_of_mem link member)
    rwa [List.append_assoc] at whole

theorem leftLevel_le {op : BinaryOp} {level : Nat} (weak : op.level < level) :
    leftLevel op ≤ level := by
  unfold leftLevel
  split <;> omega

section Two

variable {first second third : List Terminal} {a b c : Expr} {op op' : BinaryOp}

theorem derives_right (weak : op.level < op'.level)
    (left : Derives first (.operand (leftLevel op) a))
    (middle : Derives second (.operand (leftLevel op') b))
    (right : Derives third (.operand (op'.level + 1) c)) :
    Derives (first ++ .operator op :: (second ++ .operator op' :: third))
      (.operand op.level (binary op a (binary op' b c))) :=
  .binary left ((Derives.binary middle right).looser weak
    (Nat.le_trans (level_bounds op').2 (by decide)))

theorem derives_left (weak : op'.level < op.level)
    (left : Derives first (.operand (leftLevel op) a))
    (middle : Derives second (.operand (op.level + 1) b))
    (right : Derives third (.operand (op'.level + 1) c)) :
    Derives (first ++ .operator op :: (second ++ .operator op' :: third))
      (.operand op'.level (binary op' (binary op a b) c)) := by
  have inside := (Derives.binary left middle).looser (leftLevel_le weak)
    (Nat.le_trans (level_bounds op).2 (by decide))
  simpa using Derives.binary inside right

end Two

/-- What is assigned to is a variable. -/
theorem var_of_equals {before after : List Terminal} {phrase : Phrase}
    (derives : Derives (before ++ .equals :: after) phrase) :
    ∃ earlier name, before = earlier ++ [.var name] := by
  have row := row_of_derives derives
  rcases List.eq_nil_or_concat before with rfl | ⟨earlier, t, rfl⟩
  · obtain ⟨_, first, begins⟩ := row.begins
    cases first
    cases begins
  · have beside : Beside t .equals :=
      (List.isChain_append.mp row.beside).2.2 t (by simp) .equals (by simp)
    refine ⟨earlier, ?_⟩
    unfold Beside at beside
    split at beside
    · rcases beside with begins | ⟨_, _, closes⟩
      · cases begins
      · cases closes
    · rcases beside with follows | ⟨_, name, rfl⟩
      · cases follows
      · exact ⟨name, by simp⟩
    · obtain ⟨_, named⟩ := beside
      cases named

/-- An operator of another level is left where a loop ends. -/
theorem chain_of_other {level : Nat} {operand : Parser Expr} {ts rest : List Lexeme} {e : Expr}
    {op : BinaryOp} {text : String} {position : Position} (other : op.level ≠ level)
    (taken : operand ts = .ok (e, ⟨.operator op, text, position⟩ :: rest)) :
    chain level operand ts = .ok (e, ⟨.operator op, text, position⟩ :: rest) := by
  rw [chain, taken, ok_bind]
  dsimp only
  rw [List.length_cons, chainRest, if_neg other]

/-- No comparison has another one beside it as its operand. -/
theorem comparisons_apart {first second : List Terminal} {a b : Expr} {op op' : BinaryOp}
    (compares : op.level = 4) (compares' : op'.level = 4) (left : Derives first (.operand 5 a))
    (middle : Derives second (.operand 5 b)) (third : List Terminal) (e : Expr) :
    ¬Derives (first ++ .operator op :: (second ++ .operator op' :: third)) (.operand 1 e) := by
  intro derives
  let row := first ++ .operator op :: (second ++ .operator op' :: third)
  have accepted : ofLexemes (row.map bare) = .ok e :=
    ofLexemes_of_derives (by rw [terminals_bare]; exact derives)
  let inner := ofDepth row.length
  let behind := bare (.operator op') :: third.map bare
  have stops {o : BinaryOp} {rest : List Lexeme} (compares : o.level = 4) :
      Stops 5 (bare (.operator o) :: rest) :=
    stops_cons (Nat.lt_succ_of_le (Nat.le_of_eq compares))
  have taken {ts : List Terminal} {x : Expr} (derives : Derives ts (.operand 5 x))
      (part : ts.length ≤ row.length) : Whole 5 (parserAt inner 5) (ts.map bare) x :=
    Taken.whole (accepted_of_derives derives _ (terminals_bare ts) row.length part)
      (by decide) (by decide)
  have read : comparison (parserAt inner 5) (row.map bare) = .ok (binary op a b, behind) := by
    have here := taken left (by simp [row]) (bare (.operator op) :: (second.map bare ++ behind))
      (stops compares)
    have there := taken middle (by simp [row]; omega) behind (stops compares')
    simp only [row, List.map_append, List.map_cons]
    rw [comparison, here, ok_bind]
    dsimp only [bare]
    rw [if_pos compares]
    exact (congrArg (· >>= _) there).trans rfl
  have none : ∀ name more, (row.map bare).map Lexeme.terminal ≠ .var name :: .equals :: more := by
    rw [terminals_bare]
    exact no_equals_of_derives left 5 a rfl (by decide) _ (by simp)
  -- the looser levels leave the second comparison where it is
  have whole : ofDepth (row.length + 1) (row.map bare) = .ok (binary op a b, behind) :=
    (assignment_of_no_equals none).trans
      (chain_of_other (by omega) (chain_of_other (by omega) read))
  rw [ofLexemes, List.length_map, whole, ok_bind] at accepted
  cases accepted

/-- How rows of operands and operators are grouped. -/
structure Grouping : Prop where
  /-- A row has one tree at most. -/
  unique : ∀ {ts level e}, Derives ts (.operand level e) → Only ts e
  /-- Operators of one level other than comparisons group to the left. -/
  left : ∀ {level first e links}, level ≠ 4 → Derives first (.operand (level + 1) e) →
    (∀ link ∈ links, Link.Fits level link) →
      Only (first ++ links.flatMap Link.terminals) (groupLeft e links)
  /-- Comparisons do not group at all. -/
  apart : ∀ {op op' : BinaryOp} {first second a b}, op.level = 4 → op'.level = 4 →
    Derives first (.operand 5 a) → Derives second (.operand 5 b) →
      ∀ third e,
        ¬Derives (first ++ .operator op :: (second ++ .operator op' :: third)) (.operand 1 e)
  /-- Of two operators the one with the higher level takes what stands between them. -/
  tighter : ∀ {op op' : BinaryOp} {first second third a b c}, op.level < op'.level →
    Derives first (.operand (leftLevel op) a) → Derives second (.operand (leftLevel op') b) →
      Derives third (.operand (op'.level + 1) c) →
        Only (first ++ .operator op :: (second ++ .operator op' :: third))
          (binary op a (binary op' b c))
  looser : ∀ {op op' : BinaryOp} {first second third a b c}, op'.level < op.level →
    Derives first (.operand (leftLevel op) a) → Derives second (.operand (op.level + 1) b) →
      Derives third (.operand (op'.level + 1) c) →
        Only (first ++ .operator op :: (second ++ .operator op' :: third))
          (binary op' (binary op a b) c)
  /-- Unary operators bind tighter than all others. -/
  unary_first : ∀ {op : UnaryOp} {op' : BinaryOp} {first second a b}, Derives first (.operand 7 a) →
    Derives second (.operand (op'.level + 1) b) →
      Only (op.terminal :: (first ++ .operator op' :: second)) (binary op' (unary op a) b)
  /-- Accesses bind tighter than unary operators. -/
  index_first : ∀ {op : UnaryOp} {target position a b}, Derives target (.operand 8 a) →
    Derives position (.operand 1 b) →
      Only (op.terminal :: (target ++ .opening .square :: (position ++ [.closing .square])))
        (unary op (index a b))
  member_first : ∀ {op : UnaryOp} {target a name}, Derives target (.operand 8 a) →
    Only (op.terminal :: (target ++ [.dot, .name name])) (unary op (member a name))
  /-- Assignments group to the right. -/
  right : ∀ {name ts e}, Derives (.var name :: .equals :: ts) (.operand 1 e) ↔
    ∃ value, e = assign name value ∧ Derives ts (.operand 1 value)
  /-- Nothing but a variable is assigned to, wherever an assignment stands. -/
  target : ∀ {before after phrase}, Derives (before ++ .equals :: after) phrase →
    ∃ earlier name, before = earlier ++ [.var name]

theorem derives_assign_iff {name : String} {ts : List Terminal} {e : Expr} :
    Derives (.var name :: .equals :: ts) (.operand 1 e) ↔
      ∃ value, e = assign name value ∧ Derives ts (.operand 1 value) := by
  constructor
  · generalize row : Terminal.var name :: .equals :: ts = all
    generalize phrased : Phrase.operand 1 e = phrase
    intro derives
    cases derives with
    | assign inside =>
      cases row
      cases phrased
      exact ⟨_, rfl, inside⟩
    | tighter _ inside =>
      cases phrased
      refine (no_equals_of_derives inside _ _ rfl (Nat.le_refl 2) [] (by simp) name ts ?_).elim
      rw [List.append_nil, row]
    | @binary op =>
      have := (level_bounds op).1
      injection phrased with same
      omega
    | _ => cases phrased
  · rintro ⟨value, rfl, derives⟩
    exact .assign derives

theorem grouping : Grouping where
  unique derives := derives.only
  left chains first fits :=
    (derives_groupLeft chains (.tighter (Nat.lt_of_succ_le first.level_le) first) fits).only
  apart compares compares' left middle := comparisons_apart compares compares' left middle
  tighter weak left middle right := (derives_right weak left middle right).only
  looser weak left middle right := (derives_left weak left middle right).only
  unary_first {_ op' _ _ _ _} inside right := by
    have high : leftLevel op' ≤ 7 := leftLevel_le (Nat.lt_succ_of_le (level_bounds op').2)
    exact (Derives.binary (inside.unary.looser high (by decide)) right).only
  index_first target position :=
    (Derives.unary (.tighter (by decide) (.index target position))).only
  member_first target := (Derives.unary (.tighter (by decide) (.member target))).only
  right := derives_assign_iff
  target := var_of_equals

/-! From texts -/

/-- Whether all of a text is cut into terminals from which the grammar derives an expression. -/
def Forms (text : String) (e : Expr) : Prop :=
  (Lexemes.ofText text).stop = none ∧ Derives (Lexemes.ofText text).terminals (.operand 1 e)

/-- Whether no whole number of a text has too many digits. -/
def Short (text : String) : Prop := ∀ l ∈ (Lexemes.ofText text).lexemes, isLongNumber l = false

theorem exists_isLongNumber {atEnd : Bool} {taken : Nat} {ts : List Lexeme} {position : Position}
    (found : longNumber? atEnd taken ts = some position) : ∃ l ∈ ts, isLongNumber l := by
  by_contra! short
  rw [longNumber_of_short fun l member => Bool.eq_false_iff.mpr (short l member)] at found
  cases found

theorem filled_of_derives {text : String} {phrase : Phrase}
    (derives : Derives (Lexemes.ofText text).terminals phrase) :
    text.toList.all isBlank = false := by
  rw [Bool.eq_false_iff]
  intro blank
  obtain ⟨t, more, begins, _⟩ := head_of_derives derives
  rw [Lexemes.terminals, Lexemes.ofText, lexemes_of_blank blank] at begins
  cases begins

/-- A text is read as what it forms, unless a number in it has too many digits. -/
theorem parse_eq_ok_iff {text : String} {e : Expr} :
    parse text = .ok e ↔ Forms text e ∧ Short text := by
  constructor
  · intro accepted
    obtain ⟨_, ts, cut, taken, none⟩ := parseChars_eq_ok_iff.mp accepted
    have derives := derives_of_ofLexemes taken
    have short := short_of_longNumber (chain_of_derives derives) none
    rw [Forms, Short, Lexemes.terminals, Lexemes.ofText, cut]
    exact ⟨⟨rfl, derives⟩, short⟩
  · rintro ⟨⟨stop, derives⟩, short⟩
    refine parseChars_eq_ok_iff.mpr ⟨filled_of_derives derives, _, ?_,
      ofLexemes_of_derives derives, longNumber_of_short short⟩
    rw [← stop]
    rfl

theorem defect_atStop (cs : List Char) (stop : Option (Char × Position)) :
    (atStop cs stop).defect ≠ .longNumber := by
  cases stop <;> exact nofun

/-- A number is reported only where there is one. -/
theorem not_short_of_parse {text : String} {error : ParseError}
    (refused : parse text = .error error) (long : error.defect = .longNumber) : ¬Short text := by
  unfold parse parseChars at refused
  split at refused
  · cases refused
    cases long
  · dsimp only at refused
    split at refused
    · rename_i found
      obtain ⟨l, here, exceeds⟩ := exists_isLongNumber found
      intro short
      rw [short l here] at exceeds
      cases exceeds
    · cases refused
      cases long
    · cases refused
      exact (defect_atStop _ _ long).elim
    · split at refused
      · cases refused
      · cases refused
        exact (defect_atStop _ _ long).elim

/-- Terminals are read as what the grammar derives from them, which is one tree at most. So are the
texts without a number that has too many digits, and all others of these are refused for what is no
expression. -/
theorem reads_what_grammar_derives (ts : List Lexeme) (text : String) : Grouping ∧
    (∀ e, ofLexemes ts = .ok e ↔ Derives (ts.map Lexeme.terminal) (.operand 1 e)) ∧
      (∀ e, parse text = .ok e ↔ Forms text e ∧ Short text) ∧
        (Short text → (¬∃ e, Forms text e) →
          ∃ error, parse text = .error error ∧ error.defect ≠ .longNumber) := by
  refine ⟨grouping, fun _ => ofLexemes_eq_ok_iff, fun _ => parse_eq_ok_iff, ?_⟩
  intro short formless
  cases result : parse text with
  | ok e => exact (formless ⟨e, (parse_eq_ok_iff.mp result).1⟩).elim
  | error error => exact ⟨error, rfl, fun long => not_short_of_parse result long short⟩

theorem reads_differences_from_left :
    parse "7-2 - 1" = .ok (binary .sub (binary .sub (literal (.int 7)) (literal (.int 2)))
        (literal (.int 1))) ∧
      Short "7-2 -" ∧ (¬∃ e, Forms "7-2 -" e) ∧
        ∃ error, parse "7-2 -" = .error error ∧ error.defect ≠ .longNumber := by
  obtain ⟨grouping, _, accepts, _⟩ := reads_what_grammar_derives [] "7-2 - 1"
  obtain ⟨_, _, _, refuses⟩ := reads_what_grammar_derives [] "7-2 -"
  have number (n : Nat) : Derives [.literal (.int n)] (.operand 6 (literal (.int n))) :=
    Derives.literal.looser (by decide) (by decide)
  have cut : (Lexemes.ofText "7-2 - 1").terminals = [.literal (.int 7), .operator .sub,
      .literal (.int 2), .operator .sub, .literal (.int 1)] := by
    decide +kernel
  have cut' : (Lexemes.ofText "7-2 -").terminals = [.literal (.int 7), .operator .sub,
      .literal (.int 2), .operator .sub] := by
    decide +kernel
  let links : List Link :=
    [⟨.sub, [.literal (.int 2)], literal (.int 2)⟩, ⟨.sub, [.literal (.int 1)], literal (.int 1)⟩]
  have fits : ∀ link ∈ links, link.Fits 5 := by
    simp [links, Link.Fits, BinaryOp.level, number]
  have only : Only (Lexemes.ofText "7-2 - 1").terminals
      (groupLeft (literal (.int 7)) links) := by
    rw [cut]
    exact grouping.left (by decide) (number 7) fits
  have short : Short "7-2 -" := by
    unfold Short
    decide +kernel
  have formless : ¬∃ e, Forms "7-2 -" e := by
    rintro ⟨e, _, derives⟩
    have ends := (row_of_derives derives).ends
    rw [cut'] at ends
    cases ends (.operator .sub) rfl
  refine ⟨(accepts _).mpr ⟨⟨by decide +kernel, (only _).mpr rfl⟩, ?_⟩, short, formless,
    refuses short formless⟩
  unfold Short
  decide +kernel

/-- Digits are cut as one number. -/
theorem lexemes_of_digits {digits tail : List Char} (plain : ∀ c ∈ digits, isPlainDigit c)
    (nonempty : digits ≠ []) (ends : Ends tail) (place : Position) : ∃ n,
      Lexemes.ofChars .operand place (digits ++ tail) =
        ⟨⟨.literal (.int n), String.ofList digits, place⟩ ::
          (Lexemes.ofChars .operator (place.after digits) tail).lexemes,
          (Lexemes.ofChars .operator (place.after digits) tail).stop⟩ := by
  let l : Layout := .fixed digits [] nonempty plain (by simp)
  have chars : l.chars = digits := by simp [l, Layout.fixed, Layout.chars, Layout.partChars,
    Layout.exponentChars]
  obtain ⟨n, value⟩ : ∃ n, Terminal.numberLiteral digits = .int n := by
    have unmarked : ¬digits.any (fun c => c == '.' || c == 'e' || c == 'E') := by
      intro marked
      obtain ⟨c, member, mark⟩ := List.any_eq_true.mp marked
      simp only [Bool.or_eq_true, beq_iff_eq] at mark
      rcases mark with (rfl | rfl) | rfl <;> cases plain _ member
    exact ⟨_, if_neg unmarked⟩
  obtain ⟨c, more, same, filled, scanned⟩ := Terminal.scan?_layout .operand l ends
  rw [chars] at same scanned
  rw [value] at scanned
  refine ⟨n, ?_⟩
  rw [same, List.cons_append, Lexemes.ofChars, isExprBlank_of_not_isBlank filled,
    if_neg Bool.false_ne_true, scanned]
  simp only [Nat.add_sub_cancel, List.take_left, List.drop_left]
  rfl

theorem isLongNumber_of_digits {digits : List Char} (long : maxDigits < digits.length) (n : Nat)
    (place : Position) : isLongNumber ⟨.literal (.int n), String.ofList digits, place⟩ := by
  simpa [isLongNumber] using long

theorem not_blank_of_digits {digits : List Char} (plain : ∀ c ∈ digits, isPlainDigit c)
    (nonempty : digits ≠ []) : digits.all isBlank = false := by
  obtain ⟨c, more, rfl⟩ := List.exists_cons_of_ne_nil nonempty
  obtain ⟨least, most⟩ := isPlainDigit_iff.mp (plain c List.mem_cons_self)
  have printed : isBlank c = false := isBlank_of_printed (by omega) (by omega)
  rw [List.all_cons, printed, Bool.false_and]

/-- A number that has too many digits is no expression. -/
theorem parseChars_of_long {digits : List Char} (plain : ∀ c ∈ digits, isPlainDigit c)
    (long : maxDigits < digits.length) :
    ∃ place, parseChars (' ' :: digits) = .error ⟨.longNumber, place⟩ := by
  have nonempty : digits ≠ [] := by
    rintro rfl
    cases long
  have ends : Ends [] := trivial
  obtain ⟨n, cut⟩ := lexemes_of_digits plain nonempty ends (Position.start.next ' ')
  have cut : Lexemes.ofChars .operand .start (' ' :: digits) =
      ⟨[⟨.literal (.int n), String.ofList digits, Position.start.next ' '⟩], none⟩ := by
    rw [List.append_nil] at cut
    rw [Lexemes.ofChars, if_pos (by decide), cut, Lexemes.ofChars]
  have filled : (' ' :: digits).all isBlank = false := by
    rw [List.all_cons, not_blank_of_digits plain nonempty, Bool.and_false]
  have exceeds := isLongNumber_of_digits long n (Position.start.next ' ')
  have accepted : ofLexemes [⟨.literal (.int n), String.ofList digits, Position.start.next ' '⟩] =
      .ok (literal (.int n)) := rfl
  unfold parseChars
  rw [if_neg (by simp [filled]), cut]
  dsimp only
  rw [accepted]
  simp [longNumber?, exceeds]

/-- A number that has too many digits is reported although what stands behind it is the defect. -/
theorem parse_long_sum {digits : List Char} (plain : ∀ c ∈ digits, isPlainDigit c)
    (long : maxDigits < digits.length) :
    (¬∃ e, Forms (String.ofList (digits ++ ['+'])) e) ∧
      parse (String.ofList (digits ++ ['+'])) = .error ⟨.longNumber, .start⟩ := by
  have nonempty : digits ≠ [] := by
    rintro rfl
    cases long
  have ends : Ends ['+'] := ⟨rfl, by decide, by decide, by decide⟩
  obtain ⟨n, cut⟩ := lexemes_of_digits plain nonempty ends .start
  have plus (place : Position) : Lexemes.ofChars .operator place ['+'] =
      ⟨[⟨.operator .add, "+", place⟩], none⟩ := by
    rw [Lexemes.ofChars, if_neg (by decide)]
    have sign : Terminal.scan? .operator '+' [] = some (.operator .add, 1) := by decide
    rw [sign]
    dsimp only
    rw [List.drop_nil, Lexemes.ofChars]
    rfl
  rw [plus] at cut
  constructor
  · rintro ⟨e, _, derives⟩
    rw [Lexemes.ofText, String.toList_ofList, cut] at derives
    cases (row_of_derives derives).ends (.operator .add) rfl
  · have exceeds := isLongNumber_of_digits long n .start
    have filled : (digits ++ ['+']).all isBlank = false := by simp [isBlank]
    have refused : ofLexemes [⟨.literal (.int n), String.ofList digits, .start⟩,
        ⟨.operator .add, "+", Position.start.after digits⟩] = .error [] := rfl
    unfold parse parseChars
    rw [String.toList_ofList, if_neg (by simp [filled]), cut]
    dsimp only
    rw [refused]
    simp [longNumber?, exceeds, followsNumber]

/-- A text that is no expression, with another defect reported. -/
theorem long_sum_is_refused_for_number :
    let text := String.ofList (List.replicate 4301 '9' ++ ['+'])
    (¬∃ e, Forms text e) ∧ ∃ error, parse text = .error error ∧ error.defect = .longNumber := by
  have plain : ∀ c ∈ List.replicate 4301 '9', isPlainDigit c := by
    intro c member
    rw [List.eq_of_mem_replicate member]
    rfl
  have long : maxDigits < (List.replicate 4301 '9').length := by
    rw [List.length_replicate]
    decide
  obtain ⟨formless, refused⟩ := parse_long_sum plain long
  exact ⟨formless, _, refused, rfl⟩

end Expr
end Parley
