import Parley.Proofs.Expr.Neighbours
import Parley.Proofs.Expr.Scanning

/-!
Reading undoes writing: the text of an expression that has been read is read as the same expression.
-/
namespace Parley.Expr

open Terminal Ink

/-- The phrase as far as it binds by itself: an expression stands at its own level. -/
def Phrase.own : Phrase → Phrase
  | .operand _ e => .operand e.level e
  | phrase => phrase

def entryText (entry : Expr × Expr) : String := toText entry.1 ++ ": " ++ toText entry.2

def Phrase.text : Phrase → String
  | .operand _ e => toText e
  | .items es => textOfItems es
  | .entry p => entryText p
  | .entries ps => textOfEntries ps

/-- Whether neither a name nor a numeral goes on with a text. -/
def Clear (rest : List Char) : Prop := (∀ c ∈ rest.head?, isNameChar c = false) ∧ Numeral.Ends rest

/-- Whether a text is legible as a phrase, wherever it is followed by something legible. -/
def Spells (text : List Char) (phrase : Phrase) : Prop :=
  ∃ inks, inks.flatMap chars = text ∧ Derives (inks.filterMap terminal?) phrase ∧
    ∀ rest, Clear (rest.flatMap chars) → Legible .operator rest → Legible .operand (inks ++ rest)

theorem level_le (e : Expr) : e.level ≤ 8 := by
  cases e with
  | binary op _ _ => exact Nat.le_trans (level_bounds op).2 (by decide)
  | _ => simp [level]

theorem one_le_level (e : Expr) : 1 ≤ e.level := by
  cases e with
  | binary op _ _ => exact Nat.le_trans (by decide) (level_bounds op).1
  | _ => simp [level]

theorem clear_nil : Clear [] := ⟨by simp, trivial⟩

theorem clear_cons {c : Char} {rest : List Char} (name : isNameChar c = false)
    (digit : isDecimalDigit c = false) (point : c ≠ '.') : Clear (c :: rest) := by
  refine ⟨?_, digit, ?_, ?_, fun dot => (point dot).elim⟩
  · intro d first
    cases first
    exact name
  · rintro rfl
    cases name
  · rintro rfl
    cases name

/-- A text of parts that stand alone. -/
theorem spells_leaf {t : Terminal} {phrase : Phrase} (fit : t.Fit) (due : t.Due .operand)
    (closes : t.expected = .operator) (apart : ∀ rest, Clear rest → t.Apart rest)
    (derives : Derives [t] phrase) : Spells t.spelling phrase := by
  refine ⟨[.mark t], by simp [chars], derives, ?_⟩
  intro rest clear legible
  refine ⟨fit, due, apart _ clear, ?_⟩
  rw [closes]
  exact legible

theorem Spells.wrap {e : Expr} {level : Nat} (bound : level ≤ 8)
    (spells : Spells e.toText.toList (.operand e.level e)) :
    Spells (wrap level e e.toText).toList (.operand level e) := by
  obtain ⟨inks, text, derives, legible⟩ := spells
  unfold Expr.wrap
  split
  · refine ⟨.mark (.opening .round) :: (inks ++ [.mark (.closing .round)]), ?_, ?_, ?_⟩
    · simp [chars, spelling, text]
    · have all := Derives.round (derives.looser (one_le_level e) (Nat.le_succ_of_le (level_le e)))
      simpa [terminal?] using all.looser (Nat.le_succ_of_le bound) (Nat.le_refl 9)
    · intro rest clear later
      have inside : Legible .operand (inks ++ .mark (.closing .round) :: rest) :=
        legible _ (clear_cons rfl rfl (by decide)) ⟨trivial, trivial, trivial, later⟩
      rw [List.cons_append, List.append_assoc]
      exact ⟨trivial, trivial, trivial, inside⟩
  · rename_i strong
    exact ⟨inks, text, derives.looser (Nat.le_of_not_lt strong) (Nat.le_succ_of_le (level_le e)),
      legible⟩

theorem due_operator (op : BinaryOp) : (operator op).Due .operator := by
  cases op <;> trivial

theorem apart_blank (op : BinaryOp) (rest : List Char) : (operator op).Apart (' ' :: rest) := by
  cases op <;> simp [Apart]

theorem spells_binary {op : BinaryOp} {a b : Expr} {left right : List Char}
    (first : Spells left (.operand (leftLevel op) a))
    (second : Spells right (.operand (op.level + 1) b)) :
    Spells (left ++ ' ' :: (op.symbol.toList ++ ' ' :: right))
      (.operand op.level (binary op a b)) := by
  obtain ⟨before, rfl, derives, legible⟩ := first
  obtain ⟨behind, rfl, derives', legible'⟩ := second
  refine ⟨before ++ .blank :: .mark (.operator op) :: .blank :: behind, ?_, ?_, ?_⟩
  · simp [chars, spelling]
  · rw [List.filterMap_append]
    exact .binary derives derives'
  · intro rest clear later
    have operand : Legible .operand (behind ++ rest) := legible' rest clear later
    rw [List.append_assoc]
    refine legible _ (clear_cons rfl rfl (by decide)) ?_
    exact ⟨trivial, due_operator op, apart_blank op _, operand⟩

theorem spells_unary {t : Terminal} {op : UnaryOp} {e : Expr} {text : List Char}
    (free : ∀ rest, Legible .operand rest → Legible .operand (.mark t :: rest))
    (derives : ∀ ts, Derives ts (.operand 7 e) → Derives (t :: ts) (.operand 7 (unary op e)))
    (spells : Spells text (.operand 7 e)) :
    Spells (t.spelling ++ text) (.operand 7 (unary op e)) := by
  obtain ⟨inks, rfl, derived, legible⟩ := spells
  refine ⟨.mark t :: inks, rfl, derives _ derived, ?_⟩
  intro rest clear later
  exact free _ (legible rest clear later)

theorem spells_index {a b : Expr} {target position : List Char}
    (first : Spells target (.operand 8 a)) (second : Spells position (.operand 1 b)) :
    Spells (target ++ '[' :: (position ++ [']'])) (.operand 8 (index a b)) := by
  obtain ⟨before, rfl, derives, legible⟩ := first
  obtain ⟨inside, rfl, derives', legible'⟩ := second
  refine ⟨before ++ .mark (.opening .square) :: (inside ++ [.mark (.closing .square)]), ?_, ?_, ?_⟩
  · simp [chars, spelling]
  · simpa [terminal?] using Derives.index derives derives'
  · intro rest clear later
    have within : Legible .operand (inside ++ .mark (.closing .square) :: rest) :=
      legible' _ (clear_cons rfl rfl (by decide)) ⟨trivial, trivial, trivial, later⟩
    rw [List.append_assoc, List.cons_append, List.append_assoc]
    refine legible _ (clear_cons rfl rfl (by decide)) ?_
    exact ⟨trivial, trivial, trivial, within⟩

theorem spells_member {a : Expr} {name : String} {target : List Char} (fit : isName name.toList)
    (spells : Spells target (.operand 8 a)) :
    Spells (target ++ '.' :: name.toList) (.operand 8 (member a name)) := by
  obtain ⟨inks, rfl, derives, legible⟩ := spells
  refine ⟨inks ++ [.mark .dot, .mark (.name name)], ?_, ?_, ?_⟩
  · simp [chars, spelling]
  · simpa [terminal?] using Derives.member derives
  · intro rest clear later
    obtain ⟨c, more, same, start, _⟩ := isName_iff.mp fit
    have word : (chars (.mark (.name name)) ++ rest.flatMap chars).head? = some c := by
      rw [chars, spelling, same]
      rfl
    rw [List.append_assoc]
    refine legible _ ?_ ?_
    · refine ⟨?_, rfl, by decide, by decide, fun _ d first => ?_⟩
      · intro d first
        cases first
        rfl
      · cases word.symm.trans first
        exact isDecimalDigit_of_isNameStart start
    · exact ⟨trivial, trivial, trivial, fit, rfl, clear.1, later⟩

theorem spells_assign {name : String} {e : Expr} {text : List Char} (fit : isName name.toList)
    (spells : Spells text (.operand 1 e)) :
    Spells ('$' :: (name.toList ++ ' ' :: '=' :: ' ' :: text)) (.operand 1 (assign name e)) := by
  obtain ⟨inks, rfl, derives, legible⟩ := spells
  refine ⟨.mark (.var name) :: .blank :: .mark .equals :: .blank :: inks, ?_, .assign derives, ?_⟩
  · simp [chars, spelling]
  · intro rest clear later
    have behind : Legible .operand (inks ++ rest) := legible rest clear later
    refine ⟨fit, trivial, ?_, trivial, trivial, ?_, behind⟩
    · intro c first
      cases first
      rfl
    · simp [Apart, chars]

theorem spells_brackets {bracket : Bracket} {text : List Char} {e : Expr} {phrase : Phrase}
    (derives : ∀ ts, Derives ts phrase →
      Derives (.opening bracket :: (ts ++ [.closing bracket])) (.operand 8 e))
    (spells : Spells text phrase) :
    Spells ((opening bracket).spelling ++ (text ++ (closing bracket).spelling)) (.operand 8 e) := by
  obtain ⟨inks, rfl, derived, legible⟩ := spells
  refine ⟨.mark (.opening bracket) :: (inks ++ [.mark (.closing bracket)]), ?_, ?_, ?_⟩
  · simp [chars]
  · simpa [terminal?] using derives _ derived
  · intro rest clear later
    have closes : Clear ((closing bracket).spelling ++ rest.flatMap chars) := by
      cases bracket <;> exact clear_cons rfl rfl (by decide)
    have inside : Legible .operand (inks ++ .mark (.closing bracket) :: rest) :=
      legible _ closes ⟨trivial, trivial, trivial, later⟩
    rw [List.cons_append, List.append_assoc]
    exact ⟨trivial, trivial, trivial, inside⟩

theorem spells_empty {bracket : Bracket} {e : Expr}
    (derives : Derives [.opening bracket, .closing bracket] (.operand 8 e)) :
    Spells ((opening bracket).spelling ++ (closing bracket).spelling) (.operand 8 e) := by
  refine ⟨[.mark (.opening bracket), .mark (.closing bracket)], by simp [chars], derives, ?_⟩
  intro rest clear later
  exact ⟨trivial, trivial, trivial, trivial, trivial, trivial, later⟩

/-- Two texts with a separating terminal and a blank between them. -/
theorem spells_separated {t : Terminal} {c : Char} {left right : List Char}
    {one two both : Phrase} (written : t.spelling = [c]) (clears : ∀ rest, Clear (c :: rest))
    (legible_between : ∀ rest, Legible .operand rest →
      Legible .operator (.mark t :: .blank :: rest))
    (derives : ∀ ts ts', Derives ts one → Derives ts' two → Derives (ts ++ t :: ts') both)
    (first : Spells left one) (second : Spells right two) :
    Spells (left ++ c :: ' ' :: right) both := by
  obtain ⟨before, rfl, derived, legible⟩ := first
  obtain ⟨behind, rfl, derived', legible'⟩ := second
  refine ⟨before ++ .mark t :: .blank :: behind, ?_, ?_, ?_⟩
  · simp [chars, written]
  · rw [List.filterMap_append]
    exact derives _ _ derived derived'
  · intro rest clear later
    rw [List.append_assoc]
    refine legible _ ?_ (legible_between _ (legible' rest clear later))
    simpa [chars, written] using clears _

theorem Spells.looser {text : List Char} {e : Expr} {tight loose : Nat} (le : loose ≤ tight)
    (bound : tight ≤ 9) (spells : Spells text (.operand tight e)) :
    Spells text (.operand loose e) := by
  obtain ⟨inks, written, derives, legible⟩ := spells
  exact ⟨inks, written, derives.looser le bound, legible⟩

/-- An expression at its own level stands as a whole. -/
theorem Spells.alone {text : List Char} {e : Expr} (spells : Spells text (.operand e.level e)) :
    Spells text (.operand 1 e) :=
  spells.looser (one_le_level e) (Nat.le_succ_of_le (level_le e))

theorem Spells.of_eq {text other : List Char} {phrase : Phrase} (spells : Spells text phrase)
    (same : other = text) : Spells other phrase := by
  rwa [same]

theorem fit_left {left right : List Terminal} {t : Terminal}
    (fit : ∀ u ∈ left ++ t :: right, u.Fit) : ∀ u ∈ left, u.Fit :=
  fun u member => fit u (List.mem_append_left _ member)

theorem fit_right {left right : List Terminal} {t : Terminal}
    (fit : ∀ u ∈ left ++ t :: right, u.Fit) : ∀ u ∈ right, u.Fit :=
  fun u member => fit u (List.mem_append_right _ (List.mem_cons_of_mem t member))

theorem fit_inside {inside : List Terminal} {t u : Terminal}
    (fit : ∀ v ∈ t :: (inside ++ [u]), v.Fit) : ∀ v ∈ inside, v.Fit :=
  fun v member => fit v (List.mem_cons_of_mem t (List.mem_append_left _ member))

theorem fit_tail {ts : List Terminal} {t : Terminal} (fit : ∀ u ∈ t :: ts, u.Fit) :
    ∀ u ∈ ts, u.Fit := fun u member => fit u (List.mem_cons_of_mem t member)

theorem text_items_cons {e : Expr} {others : List Expr} (more : others ≠ []) :
    (textOfItems (e :: others)).toList =
      e.toText.toList ++ ',' :: ' ' :: (textOfItems others).toList := by
  cases others with
  | nil => exact (more rfl).elim
  | cons _ _ => simp [textOfItems]

theorem text_entries_cons {p : Expr × Expr} {others : List (Expr × Expr)} (more : others ≠ []) :
    (textOfEntries (p :: others)).toList =
      (entryText p).toList ++ ',' :: ' ' :: (textOfEntries others).toList := by
  obtain ⟨key, item⟩ := p
  cases others with
  | nil => exact (more rfl).elim
  | cons _ _ => simp [textOfEntries, entryText]

theorem ne_nil_of_derives {ts : List Terminal} {phrase : Phrase} (derives : Derives ts phrase) :
    phrase ≠ .items [] ∧ phrase ≠ .entries [] := by
  constructor
  · rintro rfl
    cases derives
  · rintro rfl
    cases derives

/-- What is derived from fit terminals is written legibly. -/
theorem spells_of_derives {ts : List Terminal} {phrase : Phrase} (derives : Derives ts phrase)
    (fit : ∀ t ∈ ts, t.Fit) : Spells phrase.text.toList phrase.own := by
  induction derives with
  | @assign name _ e _ ih =>
    have named : (Terminal.var name).Fit := fit _ (List.mem_cons_self)
    have text : (assign name e).toText.toList =
        '$' :: (name.toList ++ ' ' :: '=' :: ' ' :: e.toText.toList) := by simp [toText]
    have whole := spells_assign named (ih (fit_tail (fit_tail fit))).alone
    exact whole.of_eq text
  | @binary op _ _ a b _ _ first second =>
    have bounds := level_bounds op
    have demanded : leftLevel op ≤ 8 := by
      unfold leftLevel
      split <;> omega
    have left := (first (fit_left fit)).wrap demanded
    have right := (second (fit_right fit)).wrap
      (Nat.le_trans (Nat.succ_le_succ bounds.2) (by decide))
    have text : (binary op a b).toText.toList =
        (wrap (leftLevel op) a a.toText).toList ++
          ' ' :: (op.symbol.toList ++ ' ' :: (wrap (op.level + 1) b b.toText).toList) := by
      simp [toText]
    have whole := spells_binary left right
    exact whole.of_eq text
  | @not _ e _ ih =>
    have operand := (ih (fit_tail fit)).wrap (by decide : 7 ≤ 8)
    have text : (unary .not e).toText.toList = bang.spelling ++ (wrap 7 e e.toText).toList := by
      simp [toText, spelling, UnaryOp.symbol]
    have whole := spells_unary (t := .bang) (fun rest later => ⟨trivial, rfl, trivial, later⟩)
      (fun _ => .not) operand
    exact whole.of_eq text
  | @neg _ e _ ih =>
    have operand := (ih (fit_tail fit)).wrap (by decide : 7 ≤ 8)
    have text : (unary .neg e).toText.toList =
        (operator .sub).spelling ++ (wrap 7 e e.toText).toList := by
      simp [toText, spelling, UnaryOp.symbol, BinaryOp.symbol]
    have whole := spells_unary (t := .operator .sub)
      (fun rest later => ⟨trivial, trivial, trivial, later⟩) (fun _ => .neg) operand
    exact whole.of_eq text
  | @index _ _ a b _ _ first second =>
    have target := (first (fit_left fit)).wrap (Nat.le_refl 8)
    have position := (second (fit_inside
      (fun u member => fit u (List.mem_append_right _ member)))).alone
    have text : (index a b).toText.toList =
        (wrap 8 a a.toText).toList ++ '[' :: (b.toText.toList ++ [']']) := by simp [toText]
    have whole := spells_index target position
    exact whole.of_eq text
  | @member _ a name _ first =>
    have named : (Terminal.name name).Fit := fit _ (by simp)
    have target := (first (fit_left fit)).wrap (Nat.le_refl 8)
    have text : (member a name).toText.toList =
        (wrap 8 a a.toText).toList ++ '.' :: name.toList := by simp [toText]
    have whole := spells_member named target
    exact whole.of_eq text
  | @var name =>
    have named : (Terminal.var name).Fit := fit _ (List.mem_singleton_self _)
    have text : (var name).toText.toList = (Terminal.var name).spelling := by
      simp [toText, spelling]
    have whole := spells_leaf named trivial rfl (fun _ clear => clear.1)
      (Derives.var.looser (by decide : 8 ≤ 9) (Nat.le_refl 9))
    exact whole.of_eq text
  | @literal l =>
    have fits : (Terminal.literal l).Fit := fit _ (List.mem_singleton_self _)
    have text : (literal l).toText.toList = (Terminal.literal l).spelling := by
      rw [toText, spelling]
    have due : (Terminal.literal l).Due .operand := by
      cases l <;> trivial
    -- only a number could go on with what follows it
    have apart (rest : List Char) (clear : Clear rest) : (Terminal.literal l).Apart rest := by
      cases l with
      | int => exact clear.2
      | float => exact clear.2
      | _ => trivial
    have whole := spells_leaf fits due rfl apart
      (Derives.literal.looser (by decide : 8 ≤ 9) (Nat.le_refl 9))
    exact whole.of_eq text
  | emptyList =>
    have text : (list []).toText.toList =
        (opening .square).spelling ++ (closing .square).spelling := by
      simp [toText, textOfItems, spelling]
    have whole := spells_empty (Derives.emptyList.looser (by decide : 8 ≤ 9) (Nat.le_refl 9))
    exact whole.of_eq text
  | @list _ es _ ih =>
    have text : (list es).toText.toList = (opening .square).spelling ++
        ((textOfItems es).toList ++ (closing .square).spelling) := by simp [toText, spelling]
    have whole := spells_brackets (fun _ items => (Derives.list items).looser (by decide : 8 ≤ 9)
      (Nat.le_refl 9)) (ih (fit_inside fit))
    exact whole.of_eq text
  | emptyMap =>
    have text : (map []).toText.toList =
        (opening .curly).spelling ++ (closing .curly).spelling := by
      simp [toText, textOfEntries, spelling]
    have whole := spells_empty (Derives.emptyMap.looser (by decide : 8 ≤ 9) (Nat.le_refl 9))
    exact whole.of_eq text
  | @map _ ps _ ih =>
    have text : (map ps).toText.toList = (opening .curly).spelling ++
        ((textOfEntries ps).toList ++ (closing .curly).spelling) := by simp [toText, spelling]
    have whole := spells_brackets (fun _ entries => (Derives.map entries).looser (by decide : 8 ≤ 9)
      (Nat.le_refl 9)) (ih (fit_inside fit))
    exact whole.of_eq text
  | round _ ih => exact ih (fit_inside fit)
  | tighter _ _ ih => exact ih fit
  | @oneItem _ e _ ih =>
    obtain ⟨inks, written, derives, legible⟩ := (ih fit).alone
    exact ⟨inks, written, .oneItem derives, legible⟩
  | @moreItems _ _ e others _ derives first second =>
    have text := text_items_cons (e := e) (fun none => (ne_nil_of_derives derives).1 (none ▸ rfl))
    have whole := spells_separated (t := .comma) rfl (fun _ => clear_cons rfl rfl (by decide))
      (fun rest later => ⟨trivial, trivial, trivial, later⟩) (fun _ _ => .moreItems)
      (first (fit_left fit)).alone (second (fit_right fit))
    exact whole.of_eq text
  | @entry _ _ key e _ _ first second =>
    have text : (entryText (key, e)).toList =
        key.toText.toList ++ ':' :: ' ' :: e.toText.toList := by
      simp [entryText]
    have whole := spells_separated (t := .colon) rfl (fun _ => clear_cons rfl rfl (by decide))
      (fun rest later => ⟨trivial, trivial, trivial, later⟩) (fun _ _ => .entry)
      (first (fit_left fit)).alone (second (fit_right fit)).alone
    exact whole.of_eq text
  | @oneEntry _ p _ ih =>
    obtain ⟨inks, written, derives, legible⟩ := ih fit
    exact ⟨inks, written, .oneEntry derives, legible⟩
  | @moreEntries _ _ p others _ derives first second =>
    have text := text_entries_cons (p := p) (fun none => (ne_nil_of_derives derives).2 (none ▸ rfl))
    have whole := spells_separated (t := .comma) rfl (fun _ => clear_cons rfl rfl (by decide))
      (fun rest later => ⟨trivial, trivial, trivial, later⟩) (fun _ _ => .moreEntries)
      (first (fit_left fit)) (second (fit_right fit))
    exact whole.of_eq text

/-! What is known of a text that has been read -/

/-- Whether a terminal may stand behind another one as far as numbers are concerned. -/
def MayFollow (t u : Terminal) : Prop := (∃ n, t = .literal (.int n)) → followsNumber u

/-- Numbers in an expression stand in front of what may follow them. -/
theorem chain_of_derives {ts : List Terminal} {phrase : Phrase} (derives : Derives ts phrase) :
    ts.IsChain MayFollow := by
  refine (row_of_derives derives).beside.imp fun t u beside number => ?_
  obtain ⟨n, rfl⟩ := number
  rcases beside with follows | ⟨_, name, assigned⟩
  · exact follows
  · cases assigned

/-- Where no number with too many digits is found, there is none. -/
theorem short_of_longNumber {ts : List Lexeme}
    (chain : (ts.map Lexeme.terminal).IsChain MayFollow)
    (none : longNumber? true ts.length ts = none) : ∀ l ∈ ts, isLongNumber l = false := by
  induction ts with
  | nil => simp
  | cons l rest ih =>
    rw [List.length_cons, longNumber?] at none
    split at none
    · cases none
    · rename_i accepted
      rw [List.map_cons, List.isChain_cons] at chain
      have short : isLongNumber l = false := by
        by_cases long : isLongNumber l
        · have number : ∃ n, l.terminal = .literal (.int n) := by
            unfold isLongNumber at long
            split at long
            · rename_i n same
              exact ⟨n, same⟩
            · cases long
          refine absurd ?_ accepted
          rw [long, Bool.true_and]
          cases rest with
          | nil => rfl
          | cons next _ => exact chain.1 next.terminal rfl number
        · exact Bool.eq_false_iff.mpr long
      intro other member
      rcases List.mem_cons.mp member with rfl | later
      · exact short
      · exact ih chain.2 none other later

/-- The expressions in a phrase. -/
def Phrase.nodes : Phrase → List Expr
  | .operand _ e => e.nodes
  | .items es => nodesOfItems es
  | .entry p => p.1.nodes ++ p.2.nodes
  | .entries ps => nodesOfEntries ps

/-- The literals in an expression are the ones that are written. -/
theorem literal_mem_nodes {ts : List Terminal} {phrase : Phrase} (derives : Derives ts phrase)
    {l : Literal} : literal l ∈ phrase.nodes ↔ .literal l ∈ ts := by
  induction derives with
  | binary _ _ first second | index _ _ first second | moreItems _ _ first second
  | entry _ _ first second =>
    simp only [List.mem_append, List.mem_cons, List.not_mem_nil, reduceCtorEq, false_or,
      or_false, ← first, ← second]
    simp [Phrase.nodes, nodes, nodesOfItems]
  | moreEntries _ _ first second =>
    simp only [List.mem_append, List.mem_cons, reduceCtorEq, false_or, ← first, ← second]
    simp [Phrase.nodes, nodesOfEntries, or_assoc]
  | literal => simp [Phrase.nodes, nodes]
  | tighter _ _ ih => exact ih
  | var | emptyList | emptyMap => simp [Phrase.nodes, nodes, nodesOfItems, nodesOfEntries]
  | assign _ ih | not _ ih | neg _ ih | member _ ih | list _ ih | map _ ih | round _ ih =>
    simp only [List.mem_append, List.mem_cons, List.not_mem_nil, reduceCtorEq, false_or,
      or_false, ← ih]
    simp [Phrase.nodes, nodes]
  | oneItem _ ih | oneEntry _ ih =>
    rw [← ih]
    simp [Phrase.nodes, nodesOfItems, nodesOfEntries]

theorem parseChars_eq_ok_iff {cs : List Char} {e : Expr} : parseChars cs = .ok e ↔
    cs.all isBlank = false ∧ ∃ ts, Lexemes.ofChars .operand .start cs = ⟨ts, none⟩ ∧
      ofLexemes ts = .ok e ∧ longNumber? true ts.length ts = none := by
  constructor
  · intro accepted
    unfold parseChars at accepted
    split at accepted
    · cases accepted
    · rename_i filled
      refine ⟨Bool.eq_false_iff.mpr filled, ?_⟩
      generalize Lexemes.ofChars .operand .start cs = found at accepted ⊢
      obtain ⟨ts, stop⟩ := found
      dsimp only at accepted
      split at accepted
      · cases accepted
      · cases accepted
      · cases accepted
      · rename_i none taken
        split at accepted
        · rename_i ends
          cases accepted
          rw [Option.isNone_iff_eq_none] at ends
          subst ends
          rw [taken] at none
          exact ⟨ts, rfl, taken, none⟩
        · cases accepted
  · rintro ⟨filled, ts, cut, taken, none⟩
    unfold parseChars
    simp [filled, cut, taken, none]

/-- All terminals of an accepted text are fit, if its numbers are finite. -/
theorem spells_of_parseChars {cs : List Char} {e : Expr} (accepted : parseChars cs = .ok e)
    (finite : ∀ x, literal (.float x) ∈ e.nodes → x.isFinite) :
    Spells e.toText.toList (.operand e.level e) := by
  obtain ⟨_, ts, cut, taken, none⟩ := parseChars_eq_ok_iff.mp accepted
  have derives := derives_of_ofLexemes taken
  have short := short_of_longNumber (chain_of_derives derives) none
  refine spells_of_derives derives fun t member => ?_
  obtain ⟨l, here, rfl⟩ := List.mem_map.mp member
  have scanned : l ∈ (Lexemes.ofChars .operand .start cs).lexemes := by
    rw [cut]
    exact here
  refine fit_of_mem scanned (fun x same => ?_) (short l here)
  have inside : literal (.float x) ∈ e.nodes := (literal_mem_nodes derives).mpr (same ▸ member)
  exact finite x inside

theorem legible_blanks {expected : Expected} {inks : List Ink} (legible : Legible expected inks)
    (blanks : Nat) : Legible expected (List.replicate blanks .blank ++ inks) := by
  induction blanks with
  | zero => exact legible
  | succ blanks ih => exact ih

theorem mark_of_terminal {ink : Ink} {t : Terminal} (same : ink.terminal? = some t) :
    ink = .mark t := by
  cases ink with
  | blank => cases same
  | mark u =>
    cases same
    rfl

theorem longNumber_of_short {atEnd : Bool} {taken : Nat} {ts : List Lexeme}
    (short : ∀ l ∈ ts, isLongNumber l = false) : longNumber? atEnd taken ts = none := by
  induction ts generalizing taken with
  | nil => cases taken <;> rfl
  | cons l rest ih =>
    cases taken with
    | zero => rfl
    | succ taken =>
      rw [longNumber?, short l List.mem_cons_self, Bool.false_and, if_neg Bool.false_ne_true]
      exact ih fun other member => short other (List.mem_cons_of_mem l member)

/-- A text that is legible as an expression is read as that expression, with blanks in front or
without. -/
theorem parseChars_of_spells {cs : List Char} {e : Expr} (spells : Spells cs (.operand e.level e))
    (blanks : Nat) : parseChars (List.replicate blanks ' ' ++ cs) = .ok e := by
  obtain ⟨inks, rfl, derives, legible⟩ := spells.alone
  have whole := legible [] clear_nil trivial
  rw [List.append_nil] at whole
  let all := List.replicate blanks .blank ++ inks
  have text : List.replicate blanks ' ' ++ inks.flatMap chars = all.flatMap chars := by
    simp [all, List.flatMap_append, List.flatMap_replicate, chars]
  have terminals : all.filterMap terminal? = inks.filterMap terminal? := by
    simp [all, List.filterMap_append, List.filterMap_replicate, terminal?]
  have readable : Legible .operand all := legible_blanks whole blanks
  obtain ⟨ts, cut, same, short⟩ := lexemes_of_legible .start readable
  rw [parseChars_eq_ok_iff, text]
  refine ⟨?_, ts, cut, ?_, longNumber_of_short short⟩
  · obtain ⟨t, more, begins, _, _⟩ := head_of_derives derives
    have member : t ∈ all.filterMap terminal? := by
      rw [terminals, begins]
      exact List.mem_cons_self
    obtain ⟨ink, here, same⟩ := List.mem_filterMap.mp member
    obtain ⟨c, inside, filled⟩ := exists_filled readable (mark_of_terminal same ▸ here)
    rw [List.all_eq_false]
    exact ⟨c, inside, by rw [filled]; decide⟩
  · apply ofLexemes_of_derives
    rwa [same, terminals]

/-- Reading what is written of an expression that has been read gives the same expression. -/
theorem parse_toText {text : String} {e : Expr} (accepted : parse text = .ok e)
    (finite : ∀ x, literal (.float x) ∈ e.nodes → x.isFinite) : parse e.toText = .ok e :=
  parseChars_of_spells (spells_of_parseChars accepted finite) 0

theorem parse_toText_of_assignment :
    ∃ e, parse "$a=-( 1+2.50 )*$b.in[0] in ['it\\'s']" = .ok e ∧
      (∀ x, literal (.float x) ∈ e.nodes → x.isFinite) ∧
        e.toText = "$a = -(1 + 2.5) * $b.in[0] in [\"it's\"]" ∧ parse e.toText = .ok e := by
  let finite (e : Expr) : Bool :=
    match e with
    | .literal (.float x) => x.isFinite
    | _ => true
  have read : (parse "$a=-( 1+2.50 )*$b.in[0] in ['it\\'s']").toOption.map (fun e =>
      (e.toText, e.nodes.all finite)) =
          some ("$a = -(1 + 2.5) * $b.in[0] in [\"it's\"]", true) := by
    decide +kernel
  obtain ⟨e, accepted, same⟩ := Option.map_eq_some_iff.mp read
  obtain ⟨text, all⟩ := Prod.mk.inj same
  have taken := toOption_eq_some_iff.mp accepted
  have every (x : Binary64) (member : literal (.float x) ∈ e.nodes) : x.isFinite :=
    List.all_eq_true.mp all _ member
  exact ⟨e, taken, every, text, parse_toText taken every⟩

end Parley.Expr
