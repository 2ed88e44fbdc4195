import Parley.Proofs.Expr.Grammar

/-!
The parser accepts all that the grammar derives. A phrase of some level is taken from the front of a
row of terminals if nothing behind it binds as strongly; where a level groups to the left, what is
shown of it is that its loop is entered with the phrase as what has been read so far.
-/
namespace Parley.Expr

/-- How strongly a terminal binds an expression in front of it. -/
def binds : Terminal → Nat
  | .dot | .opening .square => 8
  | .operator op => op.level
  | .equals => 1
  | _ => 0

/-- Whether an expression of a level ends in front of some terminals. -/
def Stops (level : Nat) (rest : List Lexeme) : Prop := ∀ l ∈ rest.head?, binds l.terminal < level

theorem Stops.mono {tight loose : Nat} {rest : List Lexeme} (le : loose ≤ tight)
    (stops : Stops loose rest) : Stops tight rest :=
  fun l first => Nat.lt_of_lt_of_le (stops l first) le

theorem stops_cons {level : Nat} {l : Lexeme} {rest : List Lexeme}
    (weak : binds l.terminal < level) : Stops level (l :: rest) := by
  intro first here
  cases here
  exact weak

/-- The parser of each level of the grammar. -/
def parserAt (inner : Parser Expr) : Nat → Parser Expr
  | 1 => assignment inner
  | 2 => operation inner
  | 3 => chain 3 (comparison (chain 5 (chain 6 (unaryChain (accessed inner)))))
  | 4 => comparison (chain 5 (chain 6 (unaryChain (accessed inner))))
  | 5 => chain 5 (chain 6 (unaryChain (accessed inner)))
  | 6 => chain 6 (unaryChain (accessed inner))
  | 7 => unaryChain (accessed inner)
  | 8 => accessed inner
  | _ => atom inner

/-- Whether a parser takes some terminals from the front of all rows that go on with something which
does not belong to them. -/
def Whole (level : Nat) (parser : Parser Expr) (used : List Lexeme) (e : Expr) : Prop :=
  ∀ rest, Stops level rest → parser (used ++ rest) = .ok (e, rest)

/-- Whether the loop of a level is entered with an expression that some terminals form. -/
def Loops (level : Nat) (operand : Parser Expr) (used : List Lexeme) (e : Expr) : Prop :=
  ∀ rest, Stops (level + 1) rest → ∃ fuel, rest.length ≤ fuel ∧
    chain level operand (used ++ rest) = chainRest level operand fuel e rest

/-- How an expression of a level is taken from the terminals that form it. -/
def Taken (inner : Parser Expr) (used : List Lexeme) : Nat → Expr → Prop
  | 1, e => Whole 1 (parserAt inner 1) used e
  | 2, e => Loops 2 (parserAt inner 3) used e
  | 3, e => Loops 3 (parserAt inner 4) used e
  | 4, e => Whole 4 (parserAt inner 4) used e
  | 5, e => Loops 5 (parserAt inner 6) used e
  | 6, e => Loops 6 (parserAt inner 7) used e
  | 7, e => Whole 7 (parserAt inner 7) used e
  | 8, e => ∀ rest, ∃ fuel, rest.length ≤ fuel ∧
      accessed inner (used ++ rest) = accesses inner fuel e rest
  | 9, e => ∀ rest, atom inner (used ++ rest) = .ok (e, rest)
  | _, _ => True

variable {inner : Parser Expr}

theorem chainRest_of_stops {level fuel : Nat} {operand : Parser Expr} {e : Expr}
    {rest : List Lexeme} (stops : Stops level rest) :
    chainRest level operand fuel e rest = .ok (e, rest) := by
  unfold chainRest
  split
  · rename_i op text position more
    have weak : op.level < level := stops _ rfl
    rw [if_neg (Nat.ne_of_lt weak)]
  · rfl

theorem Loops.whole {level : Nat} {operand : Parser Expr} {used : List Lexeme} {e : Expr}
    (loops : Loops level operand used e) : Whole level (chain level operand) used e := by
  intro rest stops
  obtain ⟨fuel, _, entered⟩ := loops rest (stops.mono (Nat.le_succ level))
  rw [entered, chainRest_of_stops stops]

theorem Whole.loops {level : Nat} {operand : Parser Expr} {used : List Lexeme} {e : Expr}
    (whole : Whole (level + 1) operand used e) : Loops level operand used e := by
  intro rest stops
  refine ⟨rest.length, Nat.le_refl _, ?_⟩
  rw [chain, whole rest stops]
  rfl

/-- A further operand joins what a loop has been entered with. -/
theorem Loops.binary {op : BinaryOp} {operand : Parser Expr} {left right : List Lexeme}
    {text : String} {position : Position} {a b : Expr} (loops : Loops op.level operand left a)
    (whole : Whole (op.level + 1) operand right b) :
    Loops op.level operand (left ++ ⟨.operator op, text, position⟩ :: right) (binary op a b) := by
  intro rest stops
  obtain ⟨fuel, enough, entered⟩ := loops (⟨.operator op, text, position⟩ :: (right ++ rest))
    (stops_cons (Nat.lt_succ_self op.level))
  cases fuel with
  | zero => simp at enough
  | succ fuel =>
    refine ⟨fuel, ?_, ?_⟩
    · simp only [List.length_cons, List.length_append] at enough
      omega
    · rw [List.append_assoc, List.cons_append, entered, chainRest, if_pos rfl, whole rest stops]
      rfl

theorem accesses_of_stops {fuel : Nat} {e : Expr} {rest : List Lexeme} (stops : Stops 8 rest) :
    accesses inner fuel e rest = .ok (e, rest) := by
  unfold accesses
  split
  · exact (Nat.lt_irrefl 8 (stops _ rfl)).elim
  · exact (Nat.lt_irrefl 8 (stops _ rfl)).elim
  · exact (Nat.lt_irrefl 8 (stops _ rfl)).elim
  · rfl

/-- An expression of any level is taken by the parser of that level. -/
theorem Taken.whole {used : List Lexeme} {level : Nat} {e : Expr} (taken : Taken inner used level e)
    (least : 1 ≤ level) (most : level ≤ 8) : Whole level (parserAt inner level) used e := by
  match level with
  | 1 | 4 | 7 => exact taken
  | 2 | 3 | 5 | 6 => exact Loops.whole taken
  | 8 =>
    intro rest stops
    obtain ⟨fuel, _, entered⟩ := taken rest
    exact entered.trans (accesses_of_stops stops)

theorem level_bounds (op : BinaryOp) : 2 ≤ op.level ∧ op.level ≤ 6 := by
  cases op <;> decide

/-! What a phrase starts with -/

/-- Whether an expression can start with a terminal, an access or an atom only without an operator
in front. -/
def starts : Terminal → Bool
  | .var _ | .literal _ | .opening _ | .bang | .operator .sub => true
  | _ => false

def startsAccess : Terminal → Bool
  | .var _ | .literal _ | .opening _ => true
  | _ => false

theorem head_of_derives {ts : List Terminal} {phrase : Phrase} (derives : Derives ts phrase) :
    ∃ t more, ts = t :: more ∧ starts t ∧
      ∀ level e, phrase = .operand level e → 8 ≤ level → startsAccess t := by
  induction derives with
  | assign _ _ =>
    refine ⟨_, _, rfl, rfl, ?_⟩
    intro level e same high
    cases same
    omega
  | binary _ _ first _ =>
    obtain ⟨t, more, rfl, start, _⟩ := first
    refine ⟨t, _, rfl, start, ?_⟩
    intro level e same high
    cases same
    exact absurd high (Nat.not_le.mpr (Nat.lt_of_le_of_lt (level_bounds _).2 (by decide)))
  | not _ _ =>
    refine ⟨_, _, rfl, rfl, ?_⟩
    intro level e same high
    cases same
    omega
  | neg _ _ =>
    refine ⟨_, _, rfl, rfl, ?_⟩
    intro level e same high
    cases same
    omega
  | index _ _ first _ =>
    obtain ⟨t, more, rfl, start, access⟩ := first
    exact ⟨t, _, rfl, start, fun _ _ _ _ => access _ _ rfl (Nat.le_refl _)⟩
  | member _ first =>
    obtain ⟨t, more, rfl, start, access⟩ := first
    exact ⟨t, _, rfl, start, fun _ _ _ _ => access _ _ rfl (Nat.le_refl _)⟩
  | var => exact ⟨_, _, rfl, rfl, fun _ _ _ _ => rfl⟩
  | literal => exact ⟨_, _, rfl, rfl, fun _ _ _ _ => rfl⟩
  | emptyList => exact ⟨_, _, rfl, rfl, fun _ _ _ _ => rfl⟩
  | list _ _ => exact ⟨_, _, rfl, rfl, fun _ _ _ _ => rfl⟩
  | emptyMap => exact ⟨_, _, rfl, rfl, fun _ _ _ _ => rfl⟩
  | map _ _ => exact ⟨_, _, rfl, rfl, fun _ _ _ _ => rfl⟩
  | round _ _ => exact ⟨_, _, rfl, rfl, fun _ _ _ _ => rfl⟩
  | tighter _ _ first =>
    obtain ⟨t, more, rfl, start, access⟩ := first
    refine ⟨t, more, rfl, start, ?_⟩
    intro level e same high
    cases same
    exact access _ _ rfl (by omega)
  | oneItem _ first =>
    obtain ⟨t, more, rfl, start, _⟩ := first
    exact ⟨t, more, rfl, start, fun _ _ same => by cases same⟩
  | moreItems _ _ first _ =>
    obtain ⟨t, more, rfl, start, _⟩ := first
    exact ⟨t, _, rfl, start, fun _ _ same => by cases same⟩
  | entry _ _ first _ =>
    obtain ⟨t, more, rfl, start, _⟩ := first
    exact ⟨t, _, rfl, start, fun _ _ same => by cases same⟩
  | oneEntry _ first =>
    obtain ⟨t, more, rfl, start, _⟩ := first
    exact ⟨t, more, rfl, start, fun _ _ same => by cases same⟩
  | moreEntries _ _ first _ =>
    obtain ⟨t, more, rfl, start, _⟩ := first
    exact ⟨t, _, rfl, start, fun _ _ same => by cases same⟩

/-- An expression without an assignment on top does not start as an assignment does. -/
theorem no_equals_of_derives {ts : List Terminal} {phrase : Phrase} (derives : Derives ts phrase) :
    ∀ level e, phrase = .operand level e → 2 ≤ level → ∀ rest, rest.head? ≠ some .equals →
      ∀ name more, ts ++ rest ≠ .var name :: .equals :: more := by
  induction derives with
  | assign _ _ =>
    intro level e same high
    cases same
    omega
  | @binary op _ _ _ _ _ _ first _ =>
    intro level e same high rest _ name more begins
    rw [List.append_assoc] at begins
    refine first _ _ rfl ?_ _ ?_ name more begins
    · have least := (level_bounds op).1
      unfold leftLevel
      split <;> omega
    · intro equals
      cases equals
  | index _ _ first _ =>
    intro level e same high rest _ name more begins
    rw [List.append_assoc] at begins
    refine first _ _ rfl (by decide) _ ?_ name more begins
    intro equals
    cases equals
  | member _ first =>
    intro level e same high rest _ name more begins
    rw [List.append_assoc] at begins
    refine first _ _ rfl (by decide) _ ?_ name more begins
    intro equals
    cases equals
  -- what follows counts for a variable alone
  | var =>
    intro level e same high rest other name more begins
    cases begins
    exact other rfl
  | tighter _ _ ih =>
    intro level e same high
    cases same
    exact ih _ _ rfl (Nat.le_succ_of_le high)
  | oneItem _ _ | moreItems _ _ _ _ | entry _ _ _ _ | oneEntry _ _ | moreEntries _ _ _ _ =>
    intro level e same
    cases same
  | not _ _ | neg _ _ | literal | emptyList | list _ _ | emptyMap | map _ _ | round _ _ =>
    intro level e same high rest _ name more begins
    cases begins

theorem unaryChain_of_startsAccess {operand : Parser Expr} {l : Lexeme} {rest : List Lexeme}
    (access : startsAccess l.terminal) : unaryChain operand (l :: rest) = operand (l :: rest) := by
  obtain ⟨terminal, text, position⟩ := l
  unfold unaryChain
  split
  · rename_i same
    cases same
    cases access
  · rename_i same
    cases same
    cases access
  · rfl

theorem assignment_of_no_equals {ts : List Lexeme}
    (none : ∀ name more, ts.map Lexeme.terminal ≠ .var name :: .equals :: more) :
    assignment inner ts = operation inner ts := by
  unfold assignment
  split
  · rename_i name _ _ _ _ more
    exact (none name (more.map Lexeme.terminal) rfl).elim
  · rfl

/-- How each phrase is taken from the terminals that form it, with brackets nested less deep than
there are terminals. -/
def Accepted (depth : Nat) (used : List Lexeme) : Phrase → Prop
  | .operand level e => Taken (ofDepth depth) used level e
  | .items items => ∀ fuel l rest, used.length < fuel → l.terminal = .closing .square →
      separated (ofDepth (depth + 1)) .square fuel (used ++ l :: rest) = .ok (items, rest)
  | .entry p => ∀ rest, Stops 1 rest → pair (ofDepth (depth + 1)) (used ++ rest) = .ok (p, rest)
  | .entries entries => ∀ fuel l rest, used.length < fuel → l.terminal = .closing .curly →
      separated (pair (ofDepth (depth + 1))) .curly fuel (used ++ l :: rest) = .ok (entries, rest)

theorem Taken.tighter {used : List Lexeme} {level : Nat} {e : Expr} (bound : level < 9)
    (derives : Derives (used.map Lexeme.terminal) (.operand (level + 1) e))
    (taken : Taken inner used (level + 1) e) : Taken inner used level e := by
  obtain ⟨t, more, head, _, access⟩ := head_of_derives derives
  match level with
  | 0 => trivial
  | 1 =>
    intro rest stops
    have none : ∀ name more, (used ++ rest).map Lexeme.terminal ≠ .var name :: .equals :: more := by
      intro name more
      rw [List.map_append]
      refine no_equals_of_derives derives _ _ rfl (Nat.le_refl _) _ (fun equals => ?_) name more
      rw [List.head?_map] at equals
      obtain ⟨l, first, same⟩ := Option.map_eq_some_iff.mp equals
      have weak := stops l first
      rw [same] at weak
      exact Nat.lt_irrefl 1 weak
    exact (assignment_of_no_equals none).trans
      (Loops.whole taken rest (stops.mono (by decide)))
  | 2 => exact Whole.loops (taken.whole (by decide) (by decide))
  | 3 => exact Whole.loops taken
  | 4 =>
    intro rest stops
    have whole := taken.whole (by decide) (by decide) rest (stops.mono (by decide))
    change comparison (parserAt inner 5) (used ++ rest) = .ok (e, rest)
    rw [comparison, whole, ok_bind]
    dsimp only
    split
    · rename_i op text position more
      have weak : op.level < 4 := stops _ rfl
      rw [if_neg (Nat.ne_of_lt weak)]
      rfl
    · rfl
  | 5 => exact Whole.loops (taken.whole (by decide) (by decide))
  | 6 => exact Whole.loops taken
  | 7 =>
    intro rest stops
    obtain ⟨l, others, rfl, rfl, _⟩ := List.map_eq_cons_iff.mp head
    obtain ⟨fuel, _, entered⟩ := taken rest
    have unary : unaryChain (accessed inner) (l :: others ++ rest) = _ :=
      unaryChain_of_startsAccess (access _ _ rfl (Nat.le_refl _))
    exact unary.trans (entered.trans (accesses_of_stops (stops.mono (by decide))))
  | 8 =>
    intro rest
    refine ⟨rest.length, Nat.le_refl _, ?_⟩
    rw [accessed, taken rest]
    rfl

theorem taken_binary {op : BinaryOp} {left right : List Lexeme} {text : String}
    {position : Position}
    {a b : Expr} (first : Taken inner left (leftLevel op) a)
    (second : Taken inner right (op.level + 1) b) :
    Taken inner (left ++ ⟨.operator op, text, position⟩ :: right) op.level (binary op a b) := by
  have bounds := level_bounds op
  have whole : Whole (op.level + 1) (parserAt inner (op.level + 1)) right b :=
    second.whole (by omega) (by omega)
  have grouped (loops : Loops op.level (parserAt inner (op.level + 1)) left a) :
      Loops op.level (parserAt inner (op.level + 1))
        (left ++ ⟨.operator op, text, position⟩ :: right) (binary op a b) := loops.binary whole
  by_cases compares : op.level = 4
  · rw [leftLevel, if_pos compares] at first
    rw [compares] at whole ⊢
    intro rest stops
    have weak : Stops 5 (⟨.operator op, text, position⟩ :: (right ++ rest)) :=
      stops_cons (Nat.lt_succ_of_le (Nat.le_of_eq compares))
    have taken : parserAt inner 5 (left ++ ⟨.operator op, text, position⟩ :: (right ++ rest)) = _ :=
      first.whole (by decide) (by decide) _ weak
    change comparison (parserAt inner 5) _ = .ok (binary op a b, rest)
    rw [List.append_assoc, List.cons_append, comparison, taken, ok_bind]
    dsimp only
    rw [if_pos compares, whole rest (stops.mono (by decide))]
    rfl
  · rw [leftLevel, if_neg compares] at first
    cases op with
    | or | and | add | sub | mul | div | mod => exact grouped first
    | eq | ne | lt | le | gt | ge | among => exact (compares rfl).elim

theorem accepted_separated {α : Type} {item : Parser α} {bracket : Bracket} {used : List Lexeme}
    {a : α} (whole : ∀ rest, Stops 1 rest → item (used ++ rest) = .ok (a, rest)) {fuel : Nat}
    {l : Lexeme} {rest : List Lexeme} (more : 0 < fuel) (closes : l.terminal = .closing bracket) :
    separated item bracket fuel (used ++ l :: rest) = .ok ([a], rest) := by
  have weak : binds l.terminal < 1 := by rw [closes]; exact Nat.zero_lt_one
  cases fuel with
  | zero => omega
  | succ fuel =>
    unfold separated
    rw [whole (l :: rest) (stops_cons weak), ok_bind]
    dsimp only
    split
    · rename_i comma
      cases comma
      cases closes
    · rw [expect, if_pos closes]
      rfl

theorem accepted_separated_more {α : Type} {item : Parser α} {bracket : Bracket}
    {used behind rest : List Lexeme} {text : String} {position : Position} {a : α} {others : List α}
    {fuel : Nat} (whole : ∀ rest, Stops 1 rest → item (used ++ rest) = .ok (a, rest))
    (continued : separated item bracket fuel behind = .ok (others, rest)) :
    separated item bracket (fuel + 1) (used ++ ⟨.comma, text, position⟩ :: behind) =
      .ok (a :: others, rest) := by
  have weak : Stops 1 (⟨.comma, text, position⟩ :: behind) := stops_cons Nat.zero_lt_one
  unfold separated
  rw [whole _ weak, ok_bind]
  dsimp only
  rw [continued]
  rfl

theorem accepted_bracketed {α : Type} {item : Parser α} {bracket : Bracket}
    {used rest : List Lexeme} {l : Lexeme} {items : List α} {phrase : Phrase}
    (derives : Derives (used.map Lexeme.terminal) phrase)
    (taken : ∀ fuel, used.length < fuel →
      separated item bracket fuel (used ++ l :: rest) = .ok (items, rest)) :
    bracketed item bracket (used ++ l :: rest) = .ok (items, rest) := by
  obtain ⟨t, more, head, start, _⟩ := head_of_derives derives
  obtain ⟨first, others, rfl, rfl, _⟩ := List.map_eq_cons_iff.mp head
  have opens : first.terminal ≠ .closing bracket := by
    intro closes
    rw [closes] at start
    cases start
  rw [List.cons_append, bracketed, if_neg opens]
  apply taken
  simp only [List.length_cons, List.length_append]
  omega

theorem exists_of_map_append {used : List Lexeme} {left right : List Terminal} {t : Terminal}
    (same : used.map Lexeme.terminal = left ++ t :: right) :
    ∃ first text position second, used = first ++ ⟨t, text, position⟩ :: second ∧
      first.map Lexeme.terminal = left ∧ second.map Lexeme.terminal = right := by
  obtain ⟨first, others, rfl, before, same⟩ := List.map_eq_append_iff.mp same
  obtain ⟨⟨_, text, position⟩, second, rfl, rfl, behind⟩ := List.map_eq_cons_iff.mp same
  exact ⟨first, text, position, second, rfl, before, behind⟩

theorem exists_of_map_cons {used : List Lexeme} {ts : List Terminal} {t : Terminal}
    (same : used.map Lexeme.terminal = t :: ts) :
    ∃ text position rest, used = ⟨t, text, position⟩ :: rest ∧ rest.map Lexeme.terminal = ts := by
  obtain ⟨⟨_, text, position⟩, rest, rfl, rfl, behind⟩ := List.map_eq_cons_iff.mp same
  exact ⟨text, position, rest, rfl, behind⟩

theorem exists_of_map_concat {used : List Lexeme} {ts : List Terminal} {t : Terminal}
    (same : used.map Lexeme.terminal = ts ++ [t]) :
    ∃ inside text position, used = inside ++ [⟨t, text, position⟩] ∧
      inside.map Lexeme.terminal = ts := by
  obtain ⟨inside, text, position, after, rfl, within, none⟩ := exists_of_map_append same
  rw [List.map_eq_nil_iff] at none
  subst none
  exact ⟨inside, text, position, rfl, within⟩

section Steps

variable {used target : List Lexeme} {text text' : String} {position position' : Position}
  {a e : Expr} {name : String} {depth : Nat}

theorem taken_assign (taken : Taken inner used 1 e) :
    Taken inner (⟨.var name, text, position⟩ :: ⟨.equals, text', position'⟩ :: used) 1
      (assign name e) := by
  intro rest stops
  have value : assignment inner (used ++ rest) = .ok (e, rest) := taken rest stops
  change assignment inner _ = _
  rw [List.cons_append, List.cons_append, assignment, value]
  rfl

theorem taken_not (taken : Taken inner used 7 e) :
    Taken inner (⟨.bang, text, position⟩ :: used) 7 (unary .not e) := by
  intro rest stops
  have operand : unaryChain (accessed inner) (used ++ rest) = .ok (e, rest) := taken rest stops
  change unaryChain (accessed inner) _ = _
  rw [List.cons_append, unaryChain, operand]
  rfl

theorem taken_neg (taken : Taken inner used 7 e) :
    Taken inner (⟨.operator .sub, text, position⟩ :: used) 7 (unary .neg e) := by
  intro rest stops
  have operand : unaryChain (accessed inner) (used ++ rest) = .ok (e, rest) := taken rest stops
  change unaryChain (accessed inner) _ = _
  rw [List.cons_append, unaryChain, operand]
  rfl

/-- A further access joins what the accesses have been entered with. -/
theorem taken_index (taken : Taken inner target 8 a)
    (whole : ∀ rest, inner (used ++ ⟨.closing .square, text', position'⟩ :: rest) =
      .ok (e, ⟨.closing .square, text', position'⟩ :: rest)) :
    Taken inner (target ++ ⟨.opening .square, text, position⟩ ::
      (used ++ [⟨.closing .square, text', position'⟩])) 8 (index a e) := by
  intro rest
  obtain ⟨fuel, more, entered⟩ := taken
    (⟨.opening .square, text, position⟩ :: (used ++ ⟨.closing .square, text', position'⟩ :: rest))
  simp only [List.length_cons, List.length_append] at more
  cases fuel with
  | zero => omega
  | succ fuel =>
    refine ⟨fuel, by omega, ?_⟩
    simp only [List.append_assoc, List.cons_append, List.nil_append]
    rw [entered, accesses, whole]
    rfl

theorem taken_member (taken : Taken inner target 8 a) :
    Taken inner (target ++ [⟨.dot, text, position⟩, ⟨.name name, text', position'⟩]) 8
      (member a name) := by
  intro rest
  obtain ⟨fuel, more, entered⟩ := taken
    (⟨.dot, text, position⟩ :: ⟨.name name, text', position'⟩ :: rest)
  simp only [List.length_cons] at more
  cases fuel with
  | zero => omega
  | succ fuel =>
    refine ⟨fuel, by omega, ?_⟩
    simp only [List.append_assoc, List.cons_append, List.nil_append]
    rw [entered, accesses]

theorem taken_list {items : List Expr} {ts : List Terminal} (derives : Derives ts (.items items))
    (same : used.map Lexeme.terminal = ts) (accepted : Accepted depth used (.items items)) :
    Taken (ofDepth (depth + 1)) (⟨.opening .square, text, position⟩ ::
      (used ++ [⟨.closing .square, text', position'⟩])) 9 (list items) := by
  intro rest
  have taken := accepted_bracketed (same ▸ derives) fun fuel more =>
    accepted fuel ⟨.closing .square, text', position'⟩ rest more rfl
  simp only [List.append_assoc, List.cons_append, List.nil_append]
  rw [atom, taken]
  rfl

theorem taken_map {entries : List (Expr × Expr)} {ts : List Terminal}
    (derives : Derives ts (.entries entries)) (same : used.map Lexeme.terminal = ts)
    (accepted : Accepted depth used (.entries entries)) :
    Taken (ofDepth (depth + 1)) (⟨.opening .curly, text, position⟩ ::
      (used ++ [⟨.closing .curly, text', position'⟩])) 9 (map entries) := by
  intro rest
  have taken := accepted_bracketed (same ▸ derives) fun fuel more =>
    accepted fuel ⟨.closing .curly, text', position'⟩ rest more rfl
  simp only [List.append_assoc, List.cons_append, List.nil_append]
  rw [atom, taken]
  rfl

theorem taken_round
    (whole : ∀ rest, inner (used ++ ⟨.closing .round, text', position'⟩ :: rest) =
      .ok (e, ⟨.closing .round, text', position'⟩ :: rest)) :
    Taken inner (⟨.opening .round, text, position⟩ ::
      (used ++ [⟨.closing .round, text', position'⟩])) 9 e := by
  intro rest
  simp only [List.append_assoc, List.cons_append, List.nil_append]
  rw [atom, whole]
  rfl

/-- In front of something that binds nothing, an expression in brackets ends. -/
theorem inner_of_accepted {l : Lexeme} (accepted : Accepted depth used (.operand 1 e))
    (weak : binds l.terminal = 0) (rest : List Lexeme) :
    ofDepth (depth + 1) (used ++ l :: rest) = .ok (e, l :: rest) :=
  accepted (l :: rest) (stops_cons (by rw [weak]; exact Nat.zero_lt_one))

theorem accepted_entry {behind : List Lexeme} (first : Accepted depth used (.operand 1 a))
    (second : Accepted depth behind (.operand 1 e)) :
    Accepted depth (used ++ ⟨.colon, text, position⟩ :: behind) (.entry (a, e)) := by
  intro rest stops
  have key := inner_of_accepted (l := ⟨.colon, text, position⟩) first rfl (behind ++ rest)
  have item : ofDepth (depth + 1) (behind ++ rest) = .ok (e, rest) := second rest stops
  rw [List.append_assoc, List.cons_append, pair, key, ok_bind]
  dsimp only [expect]
  rw [if_pos rfl, ok_bind, item]
  rfl

end Steps

/-- The parsers take what the grammar derives. -/
theorem accepted_of_derives {ts : List Terminal} {phrase : Phrase} (derives : Derives ts phrase) :
    ∀ used, used.map Lexeme.terminal = ts → ∀ depth, ts.length ≤ depth →
      Accepted depth used phrase := by
  -- the depth is as large as there are terminals, so each bracket finds one more level
  induction derives with
  | assign _ ih =>
    intro used same depth enough
    obtain ⟨text, position, others, rfl, behind⟩ := exists_of_map_cons same
    obtain ⟨text', position', inside, rfl, within⟩ := exists_of_map_cons behind
    simp only [List.length_cons] at enough
    exact taken_assign (ih inside within depth (by omega))
  | binary _ _ first second =>
    intro used same depth enough
    obtain ⟨left, text, position, right, rfl, before, behind⟩ := exists_of_map_append same
    rw [List.length_append, List.length_cons] at enough
    exact taken_binary (first left before depth (by omega)) (second right behind depth (by omega))
  | not _ ih =>
    intro used same depth enough
    obtain ⟨text, position, inside, rfl, within⟩ := exists_of_map_cons same
    exact taken_not (ih inside within depth (Nat.le_of_succ_le enough))
  | neg _ ih =>
    intro used same depth enough
    obtain ⟨text, position, inside, rfl, within⟩ := exists_of_map_cons same
    exact taken_neg (ih inside within depth (Nat.le_of_succ_le enough))
  | index _ _ first second =>
    intro used same depth enough
    obtain ⟨target, text, position, others, rfl, before, behind⟩ := exists_of_map_append same
    obtain ⟨inside, text', position', rfl, within⟩ := exists_of_map_concat behind
    rw [List.length_append, List.length_cons, List.length_append, List.length_singleton] at enough
    obtain ⟨depth, rfl⟩ : ∃ d, depth = d + 1 := ⟨depth - 1, by omega⟩
    exact taken_index (first target before (depth + 1) (by omega))
      (inner_of_accepted (second inside within depth (by omega)) rfl)
  | member _ first =>
    intro used same depth enough
    obtain ⟨target, text, position, others, rfl, before, behind⟩ := exists_of_map_append same
    obtain ⟨text', position', after, rfl, none⟩ := exists_of_map_cons behind
    rw [List.map_eq_nil_iff] at none
    subst none
    rw [List.length_append] at enough
    exact taken_member (first target before depth (by omega))
  | var | literal =>
    intro used same depth _ rest
    obtain ⟨text, position, after, rfl, none⟩ := exists_of_map_cons same
    rw [List.map_eq_nil_iff] at none
    subst none
    rfl
  | emptyList | emptyMap =>
    intro used same depth _ rest
    obtain ⟨text, position, others, rfl, behind⟩ := exists_of_map_cons same
    obtain ⟨text', position', after, rfl, none⟩ := exists_of_map_cons behind
    rw [List.map_eq_nil_iff] at none
    subst none
    rfl
  | list derives ih =>
    intro used same depth enough
    obtain ⟨text, position, others, rfl, behind⟩ := exists_of_map_cons same
    obtain ⟨inside, text', position', rfl, within⟩ := exists_of_map_concat behind
    rw [List.length_cons, List.length_append] at enough
    obtain ⟨depth, rfl⟩ : ∃ d, depth = d + 1 := ⟨depth - 1, by omega⟩
    exact taken_list derives within (ih inside within depth (by omega))
  | map derives ih =>
    intro used same depth enough
    obtain ⟨text, position, others, rfl, behind⟩ := exists_of_map_cons same
    obtain ⟨inside, text', position', rfl, within⟩ := exists_of_map_concat behind
    rw [List.length_cons, List.length_append] at enough
    obtain ⟨depth, rfl⟩ : ∃ d, depth = d + 1 := ⟨depth - 1, by omega⟩
    exact taken_map derives within (ih inside within depth (by omega))
  | round _ ih =>
    intro used same depth enough
    obtain ⟨text, position, others, rfl, behind⟩ := exists_of_map_cons same
    obtain ⟨inside, text', position', rfl, within⟩ := exists_of_map_concat behind
    rw [List.length_cons, List.length_append] at enough
    obtain ⟨depth, rfl⟩ : ∃ d, depth = d + 1 := ⟨depth - 1, by omega⟩
    exact taken_round (inner_of_accepted (ih inside within depth (by omega)) rfl)
  | tighter bound derives ih =>
    intro used same depth enough
    exact Taken.tighter bound (same ▸ derives) (ih used same depth enough)
  | oneItem _ ih | oneEntry _ ih =>
    intro used same depth enough fuel l rest more closes
    exact accepted_separated (ih used same depth enough) (Nat.zero_lt_of_lt more) closes
  | moreItems _ _ first others | moreEntries _ _ first others =>
    intro used same depth enough fuel l rest more closes
    obtain ⟨left, text, position, right, rfl, before, behind⟩ := exists_of_map_append same
    simp only [List.length_append, List.length_cons] at enough more
    obtain ⟨fuel, rfl⟩ : ∃ n, fuel = n + 1 := ⟨fuel - 1, by omega⟩
    rw [List.append_assoc, List.cons_append]
    exact accepted_separated_more (first left before depth (by omega))
      (others right behind depth (by omega) fuel l rest (by omega) closes)
  | entry _ _ first second =>
    intro used same depth enough
    obtain ⟨left, text, position, right, rfl, before, behind⟩ := exists_of_map_append same
    rw [List.length_append, List.length_cons] at enough
    exact accepted_entry (first left before depth (by omega)) (second right behind depth (by omega))

/-- The parser accepts what the grammar derives. -/
theorem ofLexemes_of_derives {ts : List Lexeme} {e : Expr}
    (derives : Derives (ts.map Lexeme.terminal) (.operand 1 e)) : ofLexemes ts = .ok e := by
  have taken : ofDepth (ts.length + 1) (ts ++ []) = .ok (e, []) :=
    accepted_of_derives derives ts rfl ts.length (by simp) [] (by simp [Stops])
  rw [ofLexemes, ← List.append_nil ts]
  simp only [List.append_nil] at taken ⊢
  rw [taken]
  rfl

end Parley.Expr
