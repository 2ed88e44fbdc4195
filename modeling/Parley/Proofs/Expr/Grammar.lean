import Parley.Expr.Parser
import Parley.Expr.Printer
import Parley.Proofs.Outcome

/-!
The grammar of expressions over their terminals. The parser accepts what the grammar derives from
end to end, and nothing else.
-/
namespace Parley.Expr

/-- What a row of terminals can be read as: an expression at one of the levels of the grammar, the
items of a list, or an entry of a map or several. -/
inductive Phrase where
  | operand (level : Nat) (e : Expr)
  | items (items : List Expr)
  | entry (entry : Expr × Expr)
  | entries (entries : List (Expr × Expr))

/-- The grammar, in which assignment has level `1`, the operators have their own, unary operators
have `7`, accesses `8` and atoms `9`. An expression stands also at every looser level. -/
inductive Derives : List Terminal → Phrase → Prop
  | assign {name : String} {ts : List Terminal} {e : Expr} :
      Derives ts (.operand 1 e) → Derives (.var name :: .equals :: ts) (.operand 1 (assign name e))
  | binary {op : BinaryOp} {left right : List Terminal} {a b : Expr} :
      Derives left (.operand (leftLevel op) a) → Derives right (.operand (op.level + 1) b) →
        Derives (left ++ .operator op :: right) (.operand op.level (binary op a b))
  | not {ts : List Terminal} {e : Expr} :
      Derives ts (.operand 7 e) → Derives (.bang :: ts) (.operand 7 (unary .not e))
  | neg {ts : List Terminal} {e : Expr} :
      Derives ts (.operand 7 e) → Derives (.operator .sub :: ts) (.operand 7 (unary .neg e))
  | index {target position : List Terminal} {a b : Expr} :
      Derives target (.operand 8 a) → Derives position (.operand 1 b) →
        Derives (target ++ .opening .square :: (position ++ [.closing .square]))
          (.operand 8 (index a b))
  | member {target : List Terminal} {a : Expr} {name : String} :
      Derives target (.operand 8 a) →
        Derives (target ++ [.dot, .name name]) (.operand 8 (member a name))
  | var {name : String} : Derives [.var name] (.operand 9 (var name))
  | literal {l : Literal} : Derives [.literal l] (.operand 9 (literal l))
  | emptyList : Derives [.opening .square, .closing .square] (.operand 9 (list []))
  | list {ts : List Terminal} {items : List Expr} :
      Derives ts (.items items) →
        Derives (.opening .square :: (ts ++ [.closing .square])) (.operand 9 (list items))
  | emptyMap : Derives [.opening .curly, .closing .curly] (.operand 9 (map []))
  | map {ts : List Terminal} {entries : List (Expr × Expr)} :
      Derives ts (.entries entries) →
        Derives (.opening .curly :: (ts ++ [.closing .curly])) (.operand 9 (map entries))
  | round {ts : List Terminal} {e : Expr} :
      Derives ts (.operand 1 e) →
        Derives (.opening .round :: (ts ++ [.closing .round])) (.operand 9 e)
  | tighter {ts : List Terminal} {level : Nat} {e : Expr} :
      level < 9 → Derives ts (.operand (level + 1) e) → Derives ts (.operand level e)
  | oneItem {ts : List Terminal} {e : Expr} :
      Derives ts (.operand 1 e) → Derives ts (.items [e])
  | moreItems {ts rest : List Terminal} {e : Expr} {others : List Expr} :
      Derives ts (.operand 1 e) → Derives rest (.items others) →
        Derives (ts ++ .comma :: rest) (.items (e :: others))
  | entry {ks ts : List Terminal} {key e : Expr} :
      Derives ks (.operand 1 key) → Derives ts (.operand 1 e) →
        Derives (ks ++ .colon :: ts) (.entry (key, e))
  | oneEntry {ts : List Terminal} {entry : Expr × Expr} :
      Derives ts (.entry entry) → Derives ts (.entries [entry])
  | moreEntries {ts rest : List Terminal} {entry : Expr × Expr} {others : List (Expr × Expr)} :
      Derives ts (.entry entry) → Derives rest (.entries others) →
        Derives (ts ++ .comma :: rest) (.entries (entry :: others))

/-- An expression at a level stands at all looser ones. -/
theorem Derives.looser {ts : List Terminal} {e : Expr} {tight loose : Nat} (le : loose ≤ tight)
    (bound : tight ≤ 9) (derives : Derives ts (.operand tight e)) :
    Derives ts (.operand loose e) := by
  induction tight with
  | zero =>
    have none : loose = 0 := by omega
    rwa [none]
  | succ tight ih =>
    by_cases same : loose = tight + 1
    · rwa [same]
    · exact ih (by omega) (by omega) (.tighter (by omega) derives)

/-! What the parser accepts is derived. -/

/-- Whether all that a parser takes is derived as what it makes of it. -/
def Sound {α : Type} (parser : Parser α) (phrase : α → Phrase) : Prop :=
  ∀ ts a rest, parser ts = .ok (a, rest) →
    ∃ used, ts = used ++ rest ∧ Derives (used.map Lexeme.terminal) (phrase a)

theorem expect_eq_ok {t : Terminal} {ts rest : List Lexeme} {u : Unit}
    (accepted : expect t ts = .ok (u, rest)) : ∃ l, ts = l :: rest ∧ l.terminal = t := by
  unfold expect at accepted
  split at accepted
  · split at accepted
    · rename_i l more same
      cases accepted
      exact ⟨l, rfl, same⟩
    · cases accepted
  · cases accepted

theorem sound_chainRest {level : Nat} {operand : Parser Expr} (chains : level ≠ 4)
    (sound : Sound operand (.operand (level + 1))) {fuel : Nat} {left e : Expr}
    {ts rest : List Lexeme} {before : List Terminal} (first : Derives before (.operand level left))
    (accepted : chainRest level operand fuel left ts = .ok (e, rest)) :
    ∃ used, ts = used ++ rest ∧
      Derives (before ++ used.map Lexeme.terminal) (.operand level e) := by
  fun_induction chainRest level operand fuel left ts generalizing before with
  | case1 fuel left op text position more same ih =>
    rw [bind_eq_ok_iff] at accepted
    obtain ⟨⟨right, behind⟩, taken, accepted⟩ := accepted
    obtain ⟨used, rfl, second⟩ := sound _ _ _ taken
    have groups : leftLevel op = level := by rw [leftLevel, same, if_neg chains]
    have both : Derives (before ++ .operator op :: used.map Lexeme.terminal)
        (.operand level (binary op left right)) := by
      rw [← same]
      exact .binary (by rw [groups]; exact first) (by rw [same]; exact second)
    obtain ⟨others, rfl, whole⟩ := ih right behind both accepted
    exact ⟨⟨.operator op, text, position⟩ :: (used ++ others), by simp, by simpa using whole⟩
  | case2 =>
    cases accepted
    exact ⟨[], rfl, by simpa using first⟩
  | case3 =>
    cases accepted
    exact ⟨[], rfl, by simpa using first⟩

theorem sound_chain {level : Nat} {operand : Parser Expr} (chains : level ≠ 4) (bound : level < 9)
    (sound : Sound operand (.operand (level + 1))) :
    Sound (chain level operand) (.operand level) := by
  intro ts e rest accepted
  unfold chain at accepted
  rw [bind_eq_ok_iff] at accepted
  obtain ⟨⟨left, behind⟩, taken, accepted⟩ := accepted
  obtain ⟨used, rfl, first⟩ := sound _ _ _ taken
  obtain ⟨others, rfl, whole⟩ := sound_chainRest chains sound (.tighter bound first) accepted
  exact ⟨used ++ others, by simp, by simpa using whole⟩

theorem sound_comparison {operand : Parser Expr} (sound : Sound operand (.operand 5)) :
    Sound (comparison operand) (.operand 4) := by
  intro ts e rest accepted
  unfold comparison at accepted
  rw [bind_eq_ok_iff] at accepted
  obtain ⟨⟨left, behind⟩, taken, accepted⟩ := accepted
  obtain ⟨used, rfl, first⟩ := sound _ _ _ taken
  dsimp only at accepted
  split at accepted
  · rename_i op text position tail
    split at accepted
    · rename_i same
      rw [bind_eq_ok_iff] at accepted
      obtain ⟨⟨right, behind⟩, taken, accepted⟩ := accepted
      obtain ⟨others, rfl, second⟩ := sound _ _ _ taken
      cases accepted
      have level : leftLevel op = 5 := by rw [leftLevel, if_pos same]
      have both : Derives (used.map Lexeme.terminal ++ .operator op :: others.map Lexeme.terminal)
          (.operand 4 (binary op left right)) := by
        rw [← same]
        exact .binary (by rw [level]; exact first) (by rw [same]; exact second)
      exact ⟨used ++ ⟨.operator op, text, position⟩ :: others, by simp, by simpa using both⟩
    · cases accepted
      exact ⟨used, rfl, .tighter (by decide) first⟩
  · cases accepted
    exact ⟨used, rfl, .tighter (by decide) first⟩

theorem sound_unaryChain {operand : Parser Expr} (sound : Sound operand (.operand 8)) :
    Sound (unaryChain operand) (.operand 7) := by
  intro ts
  fun_induction unaryChain operand ts with
  | case1 text position more ih =>
    intro e rest accepted
    rw [bind_eq_ok_iff] at accepted
    obtain ⟨⟨inside, behind⟩, taken, accepted⟩ := accepted
    obtain ⟨used, rfl, derived⟩ := ih _ _ taken
    cases accepted
    exact ⟨⟨.bang, text, position⟩ :: used, rfl, .not derived⟩
  | case2 text position more ih =>
    intro e rest accepted
    rw [bind_eq_ok_iff] at accepted
    obtain ⟨⟨inside, behind⟩, taken, accepted⟩ := accepted
    obtain ⟨used, rfl, derived⟩ := ih _ _ taken
    cases accepted
    exact ⟨⟨.operator .sub, text, position⟩ :: used, rfl, .neg derived⟩
  | case3 ts _ _ =>
    intro e rest accepted
    obtain ⟨used, rfl, derived⟩ := sound _ _ _ accepted
    exact ⟨used, rfl, .tighter (by decide) derived⟩

theorem sound_accesses {inner : Parser Expr} (sound : Sound inner (.operand 1)) {fuel : Nat}
    {target e : Expr} {ts rest : List Lexeme} {before : List Terminal}
    (first : Derives before (.operand 8 target))
    (accepted : accesses inner fuel target ts = .ok (e, rest)) :
    ∃ used, ts = used ++ rest ∧ Derives (before ++ used.map Lexeme.terminal) (.operand 8 e) := by
  fun_induction accesses inner fuel target ts generalizing before with
  | case1 fuel target text position more ih =>
    rw [bind_eq_ok_iff] at accepted
    obtain ⟨⟨inside, behind⟩, taken, accepted⟩ := accepted
    obtain ⟨used, rfl, derived⟩ := sound _ _ _ taken
    dsimp only at accepted
    rw [bind_eq_ok_iff] at accepted
    obtain ⟨⟨⟨⟩, after⟩, closed, accepted⟩ := accepted
    obtain ⟨l, rfl, closing⟩ := expect_eq_ok closed
    obtain ⟨others, rfl, whole⟩ := ih inside after (.index first derived) accepted
    exact ⟨⟨.opening .square, text, position⟩ :: (used ++ l :: others), by simp,
      by simpa [closing] using whole⟩
  | case2 fuel target text position name text' position' more ih =>
    obtain ⟨others, rfl, whole⟩ := ih (.member first) accepted
    exact ⟨⟨.dot, text, position⟩ :: ⟨.name name, text', position'⟩ :: others, rfl,
      by simpa using whole⟩
  | case3 => cases accepted
  | case4 =>
    cases accepted
    exact ⟨[], rfl, by simpa using first⟩

/-- One item or more with commas between them, as long as the grammar puts them together that
way. -/
theorem sound_separated {α : Type} {item : Parser α} {bracket : Bracket} {one : α → Phrase}
    {many : List α → Phrase} (sound : Sound item one)
    (single : ∀ ts a, Derives ts (one a) → Derives ts (many [a]))
    (more : ∀ ts rest a others, Derives ts (one a) → Derives rest (many others) →
      Derives (ts ++ .comma :: rest) (many (a :: others))) (fuel : Nat) :
    ∀ ts items rest, separated item bracket fuel ts = .ok (items, rest) →
      ∃ used, ts = used ++ rest ∧ ∃ inside,
        used.map Lexeme.terminal = inside ++ [.closing bracket] ∧
        Derives inside (many items) := by
  induction fuel with
  | zero =>
    intro ts items rest accepted
    cases accepted
  | succ fuel ih =>
    intro ts items rest accepted
    unfold separated at accepted
    rw [bind_eq_ok_iff] at accepted
    obtain ⟨⟨first, behind⟩, taken, accepted⟩ := accepted
    obtain ⟨used, rfl, derived⟩ := sound _ _ _ taken
    dsimp only at accepted
    split at accepted
    · rename_i text position later
      rw [bind_eq_ok_iff] at accepted
      obtain ⟨⟨others, after⟩, continued, accepted⟩ := accepted
      obtain ⟨used', rfl, inside, closed, whole⟩ := ih _ _ _ continued
      cases accepted
      refine ⟨used ++ ⟨.comma, text, position⟩ :: used', by simp, _, ?_, more _ _ _ _ derived whole⟩
      simp [closed]
    · rw [bind_eq_ok_iff] at accepted
      obtain ⟨⟨⟨⟩, after⟩, closed, accepted⟩ := accepted
      obtain ⟨l, rfl, closing⟩ := expect_eq_ok closed
      cases accepted
      exact ⟨used ++ [l], by simp, _, by simp [closing], single _ _ derived⟩

theorem sound_pair {inner : Parser Expr} (sound : Sound inner (.operand 1)) :
    Sound (pair inner) .entry := by
  intro ts entry rest accepted
  unfold pair at accepted
  rw [bind_eq_ok_iff] at accepted
  obtain ⟨⟨key, behind⟩, taken, accepted⟩ := accepted
  obtain ⟨used, rfl, first⟩ := sound _ _ _ taken
  dsimp only at accepted
  rw [bind_eq_ok_iff] at accepted
  obtain ⟨⟨⟨⟩, after⟩, marked, accepted⟩ := accepted
  obtain ⟨l, rfl, colon⟩ := expect_eq_ok marked
  dsimp only at accepted
  rw [bind_eq_ok_iff] at accepted
  obtain ⟨⟨item, last⟩, taken', accepted⟩ := accepted
  obtain ⟨used', rfl, second⟩ := sound _ _ _ taken'
  cases accepted
  exact ⟨used ++ l :: used', by simp, by simpa [colon] using Derives.entry first second⟩

theorem sound_bracketed {α : Type} {item : Parser α} {bracket : Bracket} {one : α → Phrase}
    {many : List α → Phrase} (sound : Sound item one)
    (single : ∀ ts a, Derives ts (one a) → Derives ts (many [a]))
    (more : ∀ ts rest a others, Derives ts (one a) → Derives rest (many others) →
      Derives (ts ++ .comma :: rest) (many (a :: others))) {ts rest : List Lexeme} {items : List α}
    (accepted : bracketed item bracket ts = .ok (items, rest)) :
    ∃ used, ts = used ++ rest ∧
      ((items = [] ∧ used.map Lexeme.terminal = [.closing bracket]) ∨
        ∃ inside, used.map Lexeme.terminal = inside ++ [.closing bracket] ∧
          Derives inside (many items)) := by
  unfold bracketed at accepted
  split at accepted
  · cases accepted
  · rename_i l behind
    split at accepted
    · rename_i closing
      cases accepted
      exact ⟨[l], rfl, .inl ⟨rfl, by simp [closing]⟩⟩
    · obtain ⟨used, split, inside, closed, whole⟩ :=
        sound_separated sound single more _ _ _ _ accepted
      exact ⟨used, split, .inr ⟨inside, closed, whole⟩⟩

theorem sound_atom {inner : Parser Expr} (sound : Sound inner (.operand 1)) :
    Sound (atom inner) (.operand 9) := by
  intro ts e rest accepted
  unfold atom at accepted
  split at accepted
  · rename_i name text position more
    cases accepted
    exact ⟨[⟨.var name, text, position⟩], rfl, .var⟩
  · rename_i l text position more
    cases accepted
    exact ⟨[⟨.literal l, text, position⟩], rfl, .literal⟩
  · rename_i text position more
    rw [bind_eq_ok_iff] at accepted
    obtain ⟨⟨items, behind⟩, taken, accepted⟩ := accepted
    cases accepted
    obtain ⟨used, rfl, found⟩ :=
      sound_bracketed sound (fun _ _ => .oneItem) (fun _ _ _ _ => .moreItems) taken
    refine ⟨⟨.opening .square, text, position⟩ :: used, rfl, ?_⟩
    rcases found with ⟨rfl, closed⟩ | ⟨inside, closed, whole⟩
    · simpa [closed] using Derives.emptyList
    · simpa [closed] using Derives.list whole
  · rename_i text position more
    rw [bind_eq_ok_iff] at accepted
    obtain ⟨⟨entries, behind⟩, taken, accepted⟩ := accepted
    cases accepted
    obtain ⟨used, rfl, found⟩ := sound_bracketed (sound_pair sound) (fun _ _ => .oneEntry)
      (fun _ _ _ _ => .moreEntries) taken
    refine ⟨⟨.opening .curly, text, position⟩ :: used, rfl, ?_⟩
    rcases found with ⟨rfl, closed⟩ | ⟨inside, closed, whole⟩
    · simpa [closed] using Derives.emptyMap
    · simpa [closed] using Derives.map whole
  · rename_i text position more
    rw [bind_eq_ok_iff] at accepted
    obtain ⟨⟨inside, behind⟩, taken, accepted⟩ := accepted
    obtain ⟨used, rfl, derived⟩ := sound _ _ _ taken
    dsimp only at accepted
    rw [bind_eq_ok_iff] at accepted
    obtain ⟨⟨⟨⟩, after⟩, closed, accepted⟩ := accepted
    obtain ⟨l, rfl, closing⟩ := expect_eq_ok closed
    cases accepted
    exact ⟨⟨.opening .round, text, position⟩ :: (used ++ [l]), by simp,
      by simpa [closing] using Derives.round derived⟩
  · cases accepted

theorem sound_accessed {inner : Parser Expr} (sound : Sound inner (.operand 1)) :
    Sound (accessed inner) (.operand 8) := by
  intro ts e rest accepted
  unfold accessed at accepted
  rw [bind_eq_ok_iff] at accepted
  obtain ⟨⟨target, behind⟩, taken, accepted⟩ := accepted
  obtain ⟨used, rfl, first⟩ := sound_atom sound _ _ _ taken
  obtain ⟨others, rfl, whole⟩ := sound_accesses sound (.tighter (by decide) first) accepted
  exact ⟨used ++ others, by simp, by simpa using whole⟩

theorem sound_operation {inner : Parser Expr} (sound : Sound inner (.operand 1)) :
    Sound (operation inner) (.operand 2) := by
  have unary : Sound (unaryChain (accessed inner)) (.operand 7) :=
    sound_unaryChain (sound_accessed sound)
  have sum := sound_chain (by decide) (by decide) (sound_chain (by decide) (by decide) unary)
  have logical := sound_chain (by decide) (by decide) (sound_comparison sum)
  exact sound_chain (by decide) (by decide) logical

theorem sound_assignment {inner : Parser Expr} (sound : Sound inner (.operand 1)) :
    Sound (assignment inner) (.operand 1) := by
  intro ts
  fun_induction assignment inner ts with
  | case1 name text position text' position' more ih =>
    intro e rest accepted
    rw [bind_eq_ok_iff] at accepted
    obtain ⟨⟨value, behind⟩, taken, accepted⟩ := accepted
    obtain ⟨used, rfl, derived⟩ := ih _ _ taken
    cases accepted
    exact ⟨⟨.var name, text, position⟩ :: ⟨.equals, text', position'⟩ :: used, rfl,
      .assign derived⟩
  | case2 ts _ =>
    intro e rest accepted
    obtain ⟨used, rfl, derived⟩ := sound_operation sound _ _ _ accepted
    exact ⟨used, rfl, .tighter (by decide) derived⟩

theorem sound_ofDepth (depth : Nat) : Sound (ofDepth depth) (.operand 1) := by
  induction depth with
  | zero =>
    intro ts e rest accepted
    cases accepted
  | succ depth ih => exact sound_assignment ih

/-- The grammar derives all that the parser accepts. -/
theorem derives_of_ofLexemes {ts : List Lexeme} {e : Expr} (accepted : ofLexemes ts = .ok e) :
    Derives (ts.map Lexeme.terminal) (.operand 1 e) := by
  unfold ofLexemes at accepted
  rw [bind_eq_ok_iff] at accepted
  obtain ⟨⟨found, rest⟩, taken, accepted⟩ := accepted
  obtain ⟨used, split, derived⟩ := sound_ofDepth _ _ _ _ taken
  dsimp only at accepted
  split at accepted
  · rename_i none
    cases accepted
    rw [split, List.isEmpty_iff.mp none, List.append_nil]
    exact derived
  · cases accepted

end Parley.Expr
