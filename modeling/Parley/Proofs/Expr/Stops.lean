import Parley.Proofs.Expr.Grammar
import Parley.Proofs.Text.Positions

/-!
Where the parser of expressions stops in a text that it refuses: at the start of a terminal that
does not fit, at a character that starts none, or at the end.
-/
namespace Parley.Expr

/-- Whether what an outcome leaves of some terminals, or stops at, is the end of them. -/
def Within {α : Type} (ts : List Lexeme) : Except (List Lexeme) (α × List Lexeme) → Prop
  | .ok (_, rest) => rest <:+ ts
  | .error rest => rest <:+ ts

variable {α β : Type} {ts : List Lexeme}

theorem Within.longer {ts' : List Lexeme} {x : Except (List Lexeme) (α × List Lexeme)}
    (within : Within ts x) (suffix : ts <:+ ts') : Within ts' x := by
  cases x with
  | error rest => exact List.IsSuffix.trans within suffix
  | ok taken => exact List.IsSuffix.trans within suffix

theorem within_cons {l : Lexeme} {x : Except (List Lexeme) (α × List Lexeme)}
    (within : Within ts x) : Within (l :: ts) x := within.longer (List.suffix_cons l ts)

theorem within_pure (a : α) (ts : List Lexeme) : Within ts (pure (a, ts)) := List.suffix_rfl

theorem within_bind {x : Except (List Lexeme) (α × List Lexeme)}
    {f : α × List Lexeme → Except (List Lexeme) (β × List Lexeme)} (first : Within ts x)
    (later : ∀ a rest, Within rest (f (a, rest))) : Within ts (x >>= f) := by
  cases x with
  | error rest => exact first
  | ok taken => exact (later taken.1 taken.2).longer first

/-- Whether a parser leaves the end of what it is given, or stops at one. -/
def Advances (parser : Parser α) : Prop := ∀ ts, Within ts (parser ts)

theorem advances_expect (t : Terminal) : Advances (expect t) := by
  intro ts
  unfold expect
  split
  · split
    · exact List.suffix_cons _ _
    · exact List.suffix_rfl
  · exact List.suffix_rfl

variable {operand inner : Parser Expr}

theorem within_chainRest (advances : Advances operand) (level fuel : Nat) (left : Expr)
    (ts : List Lexeme) : Within ts (chainRest level operand fuel left ts) := by
  fun_induction chainRest level operand fuel left ts with
  | case1 fuel left op text position rest same ih =>
    refine within_cons (within_bind (advances rest) fun right behind => ?_)
    exact ih right behind
  | case2 => exact List.suffix_rfl
  | case3 => exact List.suffix_rfl

theorem advances_chain (advances : Advances operand) (level : Nat) :
    Advances (chain level operand) := fun ts =>
  within_bind (advances ts) fun left rest => within_chainRest advances level _ left rest

theorem advances_comparison (advances : Advances operand) : Advances (comparison operand) := by
  intro ts
  refine within_bind (advances ts) fun left rest => ?_
  dsimp only
  split
  · split
    · refine within_cons (within_bind (advances _) fun right behind => ?_)
      exact within_pure _ behind
    · exact within_pure _ _
  · exact within_pure _ _

theorem advances_unaryChain (advances : Advances operand) : Advances (unaryChain operand) := by
  intro ts
  fun_induction unaryChain operand ts with
  | case1 text position rest ih =>
    refine within_cons (within_bind ih fun e behind => ?_)
    exact within_pure _ behind
  | case2 text position rest ih =>
    refine within_cons (within_bind ih fun e behind => ?_)
    exact within_pure _ behind
  | case3 ts => exact advances ts

theorem within_accesses (advances : Advances inner) (fuel : Nat) (target : Expr)
    (ts : List Lexeme) : Within ts (accesses inner fuel target ts) := by
  fun_induction accesses inner fuel target ts with
  | case1 fuel target text position rest ih =>
    refine within_cons (within_bind (advances rest) fun position behind => ?_)
    refine within_bind (advances_expect _ behind) fun _ after => ?_
    exact ih position after
  | case2 fuel target text position name text' position' rest ih => exact within_cons (within_cons ih)
  | case3 => exact List.suffix_cons _ _
  | case4 => exact List.suffix_rfl

theorem advances_separated {item : Parser α} (advances : Advances item) (bracket : Bracket)
    (fuel : Nat) : Advances (separated item bracket fuel) := by
  induction fuel with
  | zero => exact fun ts => List.suffix_rfl
  | succ fuel ih =>
    intro ts
    refine within_bind (advances ts) fun first rest => ?_
    dsimp only
    split
    · refine within_cons (within_bind (ih _) fun others behind => ?_)
      exact within_pure _ behind
    · refine within_bind (advances_expect _ _) fun _ behind => ?_
      exact within_pure _ behind

theorem advances_bracketed {item : Parser α} (advances : Advances item) (bracket : Bracket) :
    Advances (bracketed item bracket) := by
  intro ts
  unfold bracketed
  split
  · exact List.suffix_rfl
  · split
    · exact List.suffix_cons _ _
    · exact advances_separated advances bracket _ _

theorem advances_pair (advances : Advances inner) : Advances (pair inner) := by
  intro ts
  refine within_bind (advances ts) fun key rest => ?_
  refine within_bind (advances_expect _ rest) fun _ rest => ?_
  refine within_bind (advances rest) fun item rest => ?_
  exact within_pure _ rest

theorem advances_atom (advances : Advances inner) : Advances (atom inner) := by
  intro ts
  unfold atom
  split
  · exact List.suffix_cons _ _
  · exact List.suffix_cons _ _
  · refine within_cons (within_bind (advances_bracketed advances _ _) fun items rest => ?_)
    exact within_pure _ rest
  · refine within_cons (within_bind (advances_bracketed (advances_pair advances) _ _)
      fun entries rest => ?_)
    exact within_pure _ rest
  · refine within_cons (within_bind (advances _) fun e rest => ?_)
    refine within_bind (advances_expect _ rest) fun _ rest => ?_
    exact within_pure _ rest
  · exact List.suffix_rfl

theorem advances_accessed (advances : Advances inner) : Advances (accessed inner) := by
  intro ts
  refine within_bind (advances_atom advances ts) fun target rest => ?_
  exact within_accesses advances _ target rest

theorem advances_operation (advances : Advances inner) : Advances (operation inner) :=
  advances_chain (advances_chain (advances_comparison (advances_chain (advances_chain
    (advances_unaryChain (advances_accessed advances)) 6) 5)) 3) 2

theorem advances_assignment (advances : Advances inner) : Advances (assignment inner) := by
  intro ts
  fun_induction assignment inner ts with
  | case1 name text position text' position' rest ih =>
    refine within_cons (within_cons (within_bind ih fun value behind => ?_))
    exact within_pure _ behind
  | case2 ts => exact advances_operation advances ts

theorem advances_ofDepth (depth : Nat) : Advances (ofDepth depth) := by
  induction depth with
  | zero => exact fun ts => List.suffix_rfl
  | succ depth ih => exact advances_assignment ih

/-- The terminal that the parser stops at is one of those given. -/
theorem suffix_of_ofLexemes {rest : List Lexeme} (refused : ofLexemes ts = .error rest) :
    rest <:+ ts := by
  have within := advances_ofDepth (ts.length + 1) ts
  unfold ofLexemes at refused
  cases outcome : ofDepth (ts.length + 1) ts with
  | error stopped =>
    rw [outcome] at refused within
    cases refused
    exact within
  | ok taken =>
    rw [outcome] at refused within
    dsimp only [ok_bind] at refused
    split at refused
    · cases refused
    · cases refused
      exact within

/-- Whether a text goes on with what a defect names, or has come to its end. -/
def Defect.StandsBefore : Defect → List Char → Prop
  | .token text, rest => text ≠ "" ∧ text.toList <+: rest
  | .character c, rest => [c] <+: rest
  | .unfinished, rest => rest = []
  | .empty, _ | .longNumber, _ => False

theorem place_of_mem {expected : Expected} {p : Position} {cs : List Char} {l : Lexeme}
    (member : l ∈ (Lexemes.ofChars expected p cs).lexemes) : ∃ front rest,
      cs = front ++ rest ∧ l.position = p.after front ∧ (Defect.token l.text).StandsBefore rest := by
  fun_induction Lexemes.ofChars expected p cs with
  | case1 => cases member
  | case2 expected p c rest blank ih =>
    obtain ⟨front, behind, rfl, same, stands⟩ := ih member
    exact ⟨c :: front, behind, rfl, same, stands⟩
  | case3 => cases member
  | case4 expected p c rest _ terminal length scanned text _ ih =>
    have cut : text ++ rest.drop (length - 1) = c :: rest := by simp [text]
    rcases List.mem_cons.mp member with rfl | later
    · refine ⟨[], c :: rest, rfl, rfl, by simp [text], ?_⟩
      exact ⟨rest.drop (length - 1), by rw [String.toList_ofList, cut]⟩
    · obtain ⟨front, behind, found, same, stands⟩ := ih later
      refine ⟨text ++ front, behind, ?_, ?_, stands⟩
      · rw [List.append_assoc, ← found, cut]
      · rw [same, Position.after_append]

theorem place_of_stop {expected : Expected} {p q : Position} {cs : List Char} {d : Char}
    (stopped : (Lexemes.ofChars expected p cs).stop = some (d, q)) : ∃ front rest,
      cs = front ++ rest ∧ q = p.after front ∧ (Defect.character d).StandsBefore rest := by
  fun_induction Lexemes.ofChars expected p cs with
  | case1 => cases stopped
  | case2 expected p c rest blank ih =>
    obtain ⟨front, behind, rfl, same, stands⟩ := ih stopped
    exact ⟨c :: front, behind, rfl, same, stands⟩
  | case3 expected p c rest =>
    cases stopped
    exact ⟨[], d :: rest, rfl, rfl, rest, rfl⟩
  | case4 expected p c rest _ terminal length scanned text _ ih =>
    obtain ⟨front, behind, found, same, stands⟩ := ih stopped
    have cut : text ++ rest.drop (length - 1) = c :: rest := by simp [text]
    refine ⟨text ++ front, behind, ?_, ?_, stands⟩
    · rw [List.append_assoc, ← found, cut]
    · rw [same, Position.after_append]

theorem place_of_atStop {text : List Char} :
    let e := atStop text (Lexemes.ofChars .operand .start text).stop
    ∃ front rest, text = front ++ rest ∧ e.position = Position.start.after front ∧
      e.defect.StandsBefore rest := by
  cases stopped : (Lexemes.ofChars .operand .start text).stop with
  | none => exact ⟨text, [], by simp, rfl, rfl⟩
  | some stop =>
    obtain ⟨c, q⟩ := stop
    exact place_of_stop stopped

/-- A text that is refused is refused at a place in it, where it goes on with what is named, or at
its end. -/
theorem place_of_parseChars {text : List Char} {e : ParseError} (filled : text.all isBlank = false)
    (refused : parseChars text = .error e) (known : e.defect ≠ .longNumber) : ∃ front rest,
      text = front ++ rest ∧ e.position = Position.start.after front ∧
        e.defect.StandsBefore rest := by
  unfold parseChars at refused
  rw [if_neg (by simp [filled])] at refused
  dsimp only at refused
  split at refused
  case h_1 =>
    cases refused
    exact (known rfl).elim
  case h_2 l rest _ outcome =>
    cases refused
    have member : l ∈ (Lexemes.ofChars .operand .start text).lexemes :=
      (suffix_of_ofLexemes outcome).subset List.mem_cons_self
    exact place_of_mem member
  case h_3 =>
    cases refused
    exact place_of_atStop
  case h_4 =>
    split at refused
    · cases refused
    · cases refused
      exact place_of_atStop

end Parley.Expr
