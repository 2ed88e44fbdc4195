import Parley.Proofs.Body.Counting
import Parley.Proofs.Body.Expressions
import Parley.Proofs.Body.Reading
import Parley.Proofs.Expr.Stops

/-!
Where a command with an expression that is none is reported. The place is counted through the joined
sources of its tokens, so that it is the right one exactly if no comment has taken a line feed out of
them.
-/
namespace Parley

open Tokenizer

namespace Enclosed

/-- The place of the first token of a command. -/
def origin (e : Enclosed) : Position := (e.inner.head?.map (·.position)).getD e.start

/-- Whether a command has a name, up to whose end it reads `before`, and a text behind it. -/
structure Introduces (e : Enclosed) (before text : List Char) : Prop where
  source : e.source = .ok (before ++ text)
  lead : ∃ blanks name, before = blanks ++ name ∧ blanks.all isBlank ∧ isName name
  apart : ∀ c ∈ text.head?, isNameChar c = false
  filled : text.all isBlank = false

/-- The place of a character in the source of a command, by its number; behind the last character,
the place that follows. -/
def PlaceOf (e : Enclosed) (k : Nat) (q : Position) : Prop :=
  (∃ c, (Token.places e.inner)[k]? = some (c, q)) ∨
    (Token.places e.inner).length = k ∧
      ∃ x ∈ (Token.places e.inner).getLast?, q = x.2.next x.1

variable {e : Enclosed} {before text : List Char}

theorem sources_of_source {cs : List Char} (source : e.source = .ok cs) :
    Token.sources e.inner = cs := by
  unfold Enclosed.source at source
  split at source
  · exact Except.ok.inj source
  · cases source

/-- The place in the script is counted from the first token on. -/
theorem placeInScript_eq (origin : Position) (before front : List Char) :
    placeInScript origin before (Position.start.after front) = origin.after (before ++ front) := by
  have here := Position.isPlace_after Position.isPlace_start front
  have behind := Position.isPlace_after Position.isPlace_start before
  rw [← Position.within_after_start origin, Position.after_append,
    ← Position.within_after_start (Position.start.after before)]
  unfold placeInScript Position.within
  generalize Position.start.after front = p at here ⊢
  generalize Position.start.after before = b at behind ⊢
  obtain ⟨line, column⟩ := here
  obtain ⟨line', column'⟩ := behind
  apply position_ext
  · dsimp only
    omega
  · dsimp only
    split <;> split <;> split <;> omega

theorem nameAndExpr_of_introduces (introduces : e.Introduces before text)
    {error : Expr.ParseError} (refused : Expr.parseChars text = .error error) :
    e.nameAndExpr = .error ((Cause.invalidExpression error.defect).placedAt
      (placeInScript e.origin before error.position)) := by
  obtain ⟨source, ⟨blanks, name, rfl, blank, named⟩, apart, filled⟩ := introduces
  obtain ⟨c, more, rfl, start, _⟩ := isName_iff.mp named
  have first : ∀ d ∈ (c :: more ++ text).head?, isBlank d = false := by
    rintro d ⟨⟩
    exact Terminal.isBlank_of_isNameStart start
  have all : ∀ d ∈ blanks, isBlank d := by simpa using blank
  have cut : (blanks ++ (c :: more ++ text)).takeWhile isBlank = blanks :=
    takeWhile_append_of_stop all first
  have behind : (blanks ++ (c :: more ++ text)).dropWhile isBlank = c :: more ++ text :=
    dropWhile_append_of_stop all first
  have found : nameAt (c :: more ++ text) = c :: more := nameAt_append named apart
  have content : (blanks ++ (c :: more ++ text)).all isBlank = false := by
    simp only [List.all_append, filled, Bool.and_false]
  rw [List.append_assoc] at source
  have dropped : (blanks ++ (c :: more ++ text)).drop (blanks ++ (c :: more)).length = text := by
    rw [← List.append_assoc, List.drop_left]
  unfold nameAndExpr
  rw [source]
  simp only [ok_bind, content, cut, behind, found, List.isEmpty_cons, dropped, filled, refused,
    Bool.false_eq_true, if_false]
  rfl

theorem condition_of_refused {error : ScriptError} (refused : e.nameAndExpr = .error error)
    (name : String) : e.condition name = .error error := by
  rw [condition, Enclosed.expr, refused]
  rfl

theorem assignment_of_refused {error : ScriptError} (refused : e.nameAndExpr = .error error) :
    e.assignment = .error error := by
  rw [assignment, Enclosed.expr, refused]
  rfl

/-- A place in a command: the characters in front of it, and a character at the place, which for the
end of the command is not one of its own. -/
structure Split (xs : List (Char × Position)) (k : Nat) (q : Position)
    (front rest : List (Char × Position)) (x : Char × Position) : Prop where
  whole : xs = front ++ rest
  front_eq : front = xs.take k
  place : x.2 = q
  chain : (front ++ [x]).IsChain Follows
  head : ∀ y ∈ (front ++ [x]).head?, ∀ z ∈ xs.head?, y.2 = z.2
  rest_below : ∀ y ∈ rest, q.line ≤ y.2.line
  below : ∀ y, (∀ z ∈ xs, Before z y) → q.line ≤ y.2.line

theorem follows_next (x : Char × Position) : Follows x (' ', x.2.next x.1) := by
  unfold Position.next
  split
  case isTrue feed => exact .inr ⟨Nat.lt_succ_self _, rfl⟩
  case isFalse inside => exact .inl ⟨rfl, inside⟩

theorem line_next_le {x y : Char × Position} (before : Before x y) :
    (x.2.next x.1).line ≤ y.2.line := by
  unfold Position.next
  split
  case isTrue feed => exact before.2 feed
  case isFalse => exact before.1

theorem split_inside {front others : List (Char × Position)} {x : Char × Position}
    (chain : (front ++ x :: others).IsChain Follows) :
    Split (front ++ x :: others) front.length x.2 front (x :: others) x := by
  have pairs := List.pairwise_append.mp (pairwise_before chain)
  refine ⟨rfl, List.take_left.symm, rfl, ?_, ?_, ?_, ?_⟩
  · rw [← List.singleton_append, ← List.append_assoc] at chain
    exact (List.isChain_append.mp chain).1
  · intro y first z first'
    cases front <;> cases first <;> cases first' <;> rfl
  · intro y member
    rcases List.mem_cons.mp member with rfl | later
    · exact Nat.le_refl _
    · exact ((List.pairwise_cons.mp pairs.2.1).1 y later).1
  · exact fun y behind => (behind x (by simp)).1

theorem split_end {xs : List (Char × Position)} {last : Char × Position}
    (chain : xs.IsChain Follows) (ends : xs.getLast? = some last) :
    Split xs xs.length (last.2.next last.1) xs [] (' ', last.2.next last.1) := by
  refine ⟨by simp, by simp, rfl, ?_, ?_, by simp, ?_⟩
  · refine List.isChain_append.mpr ⟨chain, .singleton _, fun y here z head => ?_⟩
    cases head
    obtain rfl : y = last := Option.some.inj (here.symm.trans ends)
    exact follows_next y
  · intro y first z first'
    cases xs with
    | nil => cases ends
    | cons a rest =>
      cases first
      cases first'
      rfl
  · exact fun y behind => line_next_le (behind last (List.mem_of_getLast? ends))

theorem split_of_placeOf {k : Nat} {q : Position}
    (chain : (Token.places e.inner).IsChain Follows) (place : e.PlaceOf k q) :
    ∃ front rest x, Split (Token.places e.inner) k q front rest x := by
  unfold PlaceOf at place
  generalize Token.places e.inner = xs at chain place ⊢
  rcases place with ⟨c, found⟩ | ⟨rfl, last, found, rfl⟩
  · obtain ⟨inside, here⟩ := List.getElem?_eq_some_iff.mp found
    have cut : xs = xs.take k ++ (c, q) :: xs.drop (k + 1) := by
      rw [← here, List.getElem_cons_drop, List.take_append_drop]
    have number : (xs.take k).length = k := List.length_take_of_le (Nat.le_of_lt inside)
    rw [cut] at chain
    have split := split_inside chain
    rw [← cut, number] at split
    exact ⟨_, _, _, split⟩
  · exact ⟨_, _, _, split_end chain found⟩

/-- In the lines of a command in front of a place, a line feed in front of the place is as good as
one anywhere around the command. -/
theorem Split.hasFeed_iff {before xs behind front rest : List (Char × Position)} {k i : Nat}
    {q : Position} {x z : Char × Position} (cut : Split xs k q front rest x)
    (chain : (before ++ xs ++ behind).IsChain Follows) (first : z ∈ xs.head?)
    (least : z.2.line ≤ i) (below : i < q.line) :
    HasFeed front i ↔ HasFeed (before ++ xs ++ behind) i := by
  have pairs := List.pairwise_append.mp (pairwise_before chain)
  constructor
  · rintro ⟨y, member, feed⟩
    have inside : y ∈ xs := cut.whole ▸ List.mem_append_left _ member
    exact ⟨y, List.mem_append_left _ (List.mem_append_right _ inside), feed⟩
  · rintro ⟨y, member, feed, rfl⟩
    rcases List.mem_append.mp member with upTo | later
    · rcases List.mem_append.mp upTo with earlier | inside
      · have ahead : Before y z := (List.pairwise_append.mp pairs.1).2.2 y earlier z
          (List.mem_of_head? first)
        have short := ahead.2 feed
        omega
      · rw [cut.whole] at inside
        rcases List.mem_append.mp inside with front | rest
        · exact ⟨y, front, feed, rfl⟩
        · have := cut.rest_below y rest
          omega
    · have far := cut.below y fun z inside =>
        pairs.2.2 z (List.mem_append_right _ inside) y later
      omega

theorem places_ne_nil {k : Nat} {q : Position} (place : e.PlaceOf k q) :
    Token.places e.inner ≠ [] := by
  intro none
  rcases place with ⟨c, found⟩ | ⟨-, last, found, -⟩
  · rw [none] at found
    cases found
  · rw [none] at found
    cases found

theorem head_places (some : ∀ t ∈ e.inner, t.source.toList ≠ []) :
    ∀ z ∈ (Token.places e.inner).head?, z.2 = e.origin := by
  unfold origin
  cases tokens : e.inner with
  | nil => simp [Token.places]
  | cons t rest =>
    intro z head
    obtain ⟨c, more, written⟩ := List.exists_cons_of_ne_nil (some t (by simp [tokens]))
    rw [Token.places, List.flatMap_cons, Token.placed, written] at head
    cases head
    rfl

/-- The place that is reported for a character of a command, or for its end, is where it stands
exactly if every line from the first token's on gives its line feed. -/
theorem after_eq_iff_of_placeOf {tokens : List Token} {k : Nat} {q : Position}
    (chain : (Token.places tokens).IsChain Follows) (part : e.inner <:+: tokens)
    (some : ∀ t ∈ tokens, t.source.toList ≠ []) (place : e.PlaceOf k q) :
    e.origin.after ((Token.sources e.inner).take k) = q ↔
      ∀ i, e.origin.line ≤ i → i < q.line → HasFeed (Token.places tokens) i := by
  have first := head_places fun t member => some t (part.subset member)
  obtain ⟨z, more, written⟩ := List.exists_cons_of_ne_nil (places_ne_nil place)
  have start : z.2 = e.origin := first z (by rw [written]; rfl)
  obtain ⟨before, behind, rfl⟩ := part
  rw [Token.places_append, Token.places_append] at chain ⊢
  have inner : (Token.places e.inner).IsChain Follows :=
    (List.isChain_append.mp (List.isChain_append.mp chain).1).2.1
  obtain ⟨front, rest, x, cut⟩ := split_of_placeOf inner place
  have head : z ∈ (Token.places e.inner).head? := by rw [written]; rfl
  have origin : ∀ y ∈ (front ++ [x]).head?, y.2 = e.origin := fun y there =>
    (cut.head y there z head).trans start
  have spelled : front.map Prod.fst = (Token.sources e.inner).take k := by
    rw [cut.front_eq, List.map_take, Token.map_fst_places]
  have reached := (count_lines cut.chain origin).reached
  rw [spelled, cut.place] at reached
  rw [reached]
  refine forall_congr' fun i => forall_congr' fun least => forall_congr' fun below => ?_
  rw [← start] at least
  exact cut.hasFeed_iff chain head least below

theorem exists_placeOf {k : Nat} (some : Token.places e.inner ≠ [])
    (bound : k ≤ (Token.sources e.inner).length) : ∃ q, e.PlaceOf k q := by
  rw [← Token.map_fst_places, List.length_map] at bound
  rcases Nat.lt_or_eq_of_le bound with inside | rfl
  · obtain ⟨c, q⟩ := (Token.places e.inner)[k]
    exact ⟨_, .inl ⟨_, List.getElem?_eq_getElem inside⟩⟩
  · exact ⟨_, .inr ⟨rfl, _, List.getLast?_eq_some_getLast some, rfl⟩⟩

theorem exists_line_of_placeOf {k : Nat} {q : Position} (place : e.PlaceOf k q) :
    ∃ x ∈ Token.places e.inner, q.line ≤ x.2.line + 1 := by
  rcases place with ⟨c, found⟩ | ⟨-, last, found, rfl⟩
  · exact ⟨(c, q), List.mem_of_getElem? found, Nat.le_succ _⟩
  · refine ⟨last, List.mem_of_getLast? found, ?_⟩
    unfold Position.next
    split
    · exact Nat.le_refl _
    · exact Nat.le_succ _

/-- Whether the lines from the start of a command on, up to that of a place, all come to their line
feed, with no comment in front of it. -/
def Uncommented (e : Enclosed) (number : Nat) (lines : List (List Char)) (tokens : List Token)
    (q : Position) : Prop :=
  ∀ i line, e.origin.line ≤ number + i → number + i < q.line → lines[i]? = some line →
    line.getLast? = some '\n' ∧ ¬ EndsInComment (Token.ofLine (number + i) tokens) line

/-- The place that is reported for a character of a command, or for its end, is where it stands
exactly if no comment ends a line in front of it. -/
theorem after_eq_iff_uncommented {state : Tokenizer} {number : Nat} {lines : List (List Char)}
    {tokens : List Token} {k : Nat} {q : Position} (flat : ∀ line ∈ lines, '\n' ∉ line.dropLast)
    (read : (readLines state number lines).1 = .ok tokens) (part : e.inner <:+: tokens)
    (place : e.PlaceOf k q) :
    e.origin.after ((Token.sources e.inner).take k) = q ↔
      e.Uncommented number lines tokens q := by
  have some := some_of_readLines read
  rw [after_eq_iff_of_placeOf (chain_of_readLines flat read).1 part some place]
  constructor
  · intro feeds i line least below there
    exact (hasFeed_iff flat read there).mp (feeds (number + i) least below)
  · intro all n least below
    have part' : Token.places e.inner ⊆ Token.places tokens := Token.places_subset part.subset
    obtain ⟨x, inside, near⟩ := exists_line_of_placeOf place
    obtain ⟨z, more, written⟩ := List.exists_cons_of_ne_nil (places_ne_nil place)
    have first : z ∈ (Token.places e.inner).head? := by rw [written]; rfl
    obtain ⟨k, j, line, there, -, same⟩ := standsIn_of_readLines read x (part' inside)
    obtain ⟨k', j', _, -, -, same'⟩ :=
      standsIn_of_readLines read z (part' (List.mem_of_head? first))
    rw [head_places (fun t member => some t (part.subset member)) z first] at same'
    rw [same] at near
    have from_first : number ≤ e.origin.line := by rw [same']; exact Nat.le_add_right ..
    obtain ⟨i, rfl⟩ := Nat.exists_eq_add_of_le (Nat.le_trans from_first least)
    have bound : i < lines.length := by
      have := (List.getElem?_eq_some_iff.mp there).1
      dsimp only at near
      omega
    have found := List.getElem?_eq_getElem bound
    exact (hasFeed_iff flat read found).mpr (all i _ least below found)

end Enclosed

namespace Body

namespace Reading

/-- Whether a body that has been read up to some place may go on with a command that decides or
assigns. -/
def Awaits (s : Reading) (allowed : List String) (name : String) : Prop :=
  name ∈ s.allows allowed ∧ (name = "if" ∨ name = "set" ∧ s.body.replies = []) ∨
    name = "elseif" ∧ ∃ f rest done condition,
      s.frames = f :: rest ∧ f.block = .choice done (some condition)

variable {s : Reading} {allowed : List String} {name : String} {e given : Enclosed} {t : Token}
  {error : ScriptError}

/-- What refuses a command ends the reading of its body. -/
theorem step_of_refused_text (dialogue : String) (refused : e.nameAndExpr = .error error)
    (named : given.named = .ok (name, t, e)) (awaits : s.Awaits allowed name) :
    s.step dialogue allowed (.command given) = .error error := by
  rcases awaits with ⟨listed, rfl | ⟨rfl, none⟩⟩ | ⟨rfl, f, rest, done, condition, inside, block⟩
  · rw [step_of_other named (by decide), permitted_eq listed (by decide) (.inr (.inl rfl)), command,
      Enclosed.condition_of_refused refused]
    rfl
  · rw [step_of_other named (by decide), permitted_eq listed (by decide) (.inl none), command,
      Enclosed.assignment_of_refused refused]
    rfl
  · rw [step_of_clause named inside (by simp [block, Block.clauses, choiceClauses]), clause, block]
    dsimp only
    rw [if_pos rfl, Enclosed.condition_of_refused refused]
    rfl

end Reading

/-- Whether an error at a command is what the reading of some tokens ends with, be the command one of
the body or, for an assignment, one of a reply. -/
structure Reports (tokens : List Token) (e : Enclosed) (error : ScriptError) : Prop where
  body : ∀ {dialogue : String} {allowed : List String} {name : String} {given : Enclosed}
    {t : Token} {done later : List Item} {s : Reading},
    Item.ofTokens tokens = done ++ .command given :: later →
      done.foldlM (Reading.step dialogue allowed) (.start 1) = .ok s →
        given.named = .ok (name, t, e) → s.Awaits allowed name →
          ofTokens dialogue allowed tokens = .error error
  reply : ∀ {given : Enclosed} {t : Token}, given.named = .ok ("set", t, e) →
    replyCommand given = .error error

theorem reports_of_refused {e : Enclosed} {error : ScriptError}
    (refused : e.nameAndExpr = .error error) (tokens : List Token) : Reports tokens e error where
  body := by
    intro dialogue allowed name given t done later s items read named awaits
    have ended := Reading.step_of_refused_text dialogue refused named awaits
    rw [ofTokens, items, List.foldlM_append, read, ok_bind, List.foldlM_cons, ended]
    rfl
  reply := by
    intro given t named
    have permitted : permit ["action", "set"] "set" t = .ok () := rfl
    have other : ¬ "set" = "action" := by decide
    simp only [replyCommand, named, ok_bind, permitted, if_neg other,
      Enclosed.assignment_of_refused refused]
    rfl

/-- A command whose text is no expression is refused with the defect that the text has in front of
`rest`. The place that is reported for it is that of the first character of `rest`, or behind the end
of the command if `rest` is empty, exactly if no comment ends a line in front of it. -/
theorem fault_placed_iff_uncommented {state : Tokenizer} {number : Nat} {lines : List (List Char)}
    {tokens : List Token} {e : Enclosed} {before text : List Char} {error : Expr.ParseError}
    (flat : ∀ line ∈ lines, '\n' ∉ line.dropLast)
    (read : (readLines state number lines).1 = .ok tokens) (part : e.inner <:+: tokens)
    (introduces : e.Introduces before text) (refused : Expr.parseChars text = .error error)
    (known : error.defect ≠ .longNumber) : ∃ front rest p q,
      text = front ++ rest ∧ error.position = Position.start.after front ∧
        error.defect.StandsBefore rest ∧
      Reports tokens e ((Cause.invalidExpression error.defect).placedAt p) ∧
      e.PlaceOf (before ++ front).length q ∧
      (∀ x ∈ Token.places e.inner, StandsIn number lines x) ∧
      (p = q ↔ e.Uncommented number lines tokens q) := by
  obtain ⟨front, rest, rfl, place, stands⟩ :=
    Expr.place_of_parseChars introduces.filled refused known
  have spelled : Token.sources e.inner = before ++ (front ++ rest) :=
    Enclosed.sources_of_source introduces.source
  have taken : (Token.sources e.inner).take (before ++ front).length = before ++ front := by
    rw [spelled, ← List.append_assoc, List.take_left]
  have bound : (before ++ front).length ≤ (Token.sources e.inner).length := by
    rw [spelled, ← List.append_assoc]
    exact (List.prefix_append _ _).length_le
  have some : Token.places e.inner ≠ [] := by
    intro none
    have empty := congrArg (List.map Prod.fst) none
    rw [Token.map_fst_places, spelled, List.map_nil, List.append_eq_nil_iff] at empty
    have filled := introduces.filled
    rw [empty.2] at filled
    cases filled
  have reports := reports_of_refused (Enclosed.nameAndExpr_of_introduces introduces refused) tokens
  rw [place, Enclosed.placeInScript_eq] at reports
  obtain ⟨q, here⟩ := Enclosed.exists_placeOf some bound
  have right := Enclosed.after_eq_iff_uncommented flat read part here
  rw [taken] at right
  refine ⟨front, rest, _, q, rfl, place, stands, reports, here, ?_, right⟩
  exact fun x member => standsIn_of_readLines read x (Token.places_subset part.subset member)

/-- A command over two lines: the place behind its line feed is found. -/
theorem fault_placed_in_second_line :
    let lines := ["<<set $a =\n".toList, "= 1>>".toList]
    let e : Enclosed := ⟨⟨1, 1⟩, [⟨.text "set ", "set ", ⟨1, 3⟩⟩, ⟨.var "a", "$a", ⟨1, 7⟩⟩,
      ⟨.text " =\n", " =\n", ⟨1, 9⟩⟩, ⟨.text "= 1", "= 1", ⟨2, 1⟩⟩], some ⟨2, 4⟩⟩
    let tokens := ⟨.commandStart, "<<", ⟨1, 1⟩⟩ :: e.inner ++ [⟨.commandEnd, ">>", ⟨2, 4⟩⟩]
    (readLines .initial 1 lines).1 = .ok tokens ∧ e.Uncommented 1 lines tokens ⟨2, 1⟩ ∧
      Reports tokens e ((Cause.invalidExpression (.token "=")).placedAt ⟨2, 1⟩) := by
  intro lines e tokens
  have flat : ∀ line ∈ lines, '\n' ∉ line.dropLast := by decide
  have read : (readLines .initial 1 lines).1 = .ok tokens := by decide +kernel
  have part : e.inner <:+: tokens := ⟨[_], [_], rfl⟩
  have introduces : e.Introduces "set".toList " $a =\n= 1".toList :=
    ⟨by rfl, ⟨[], _, rfl, rfl, by decide⟩, by rintro c ⟨⟩; rfl, by decide⟩
  have refused : Expr.parseChars " $a =\n= 1".toList = .error ⟨.token "=", ⟨2, 1⟩⟩ :=
    errorIn_eq_some_iff.mp (by decide +kernel)
  obtain ⟨front, rest, p, q, whole, place, -, reports, here, -, right⟩ :=
    fault_placed_iff_uncommented flat read part introduces refused (by decide)
  have cut : ∀ n ≤ 9, ⟨2, 1⟩ = Position.start.after (" $a =\n= 1".toList.take n) → n = 6 := by
    decide
  have short : front.length ≤ " $a =\n= 1".toList.length := by
    rw [whole]
    exact (List.prefix_append _ _).length_le
  have taken : front = " $a =\n= 1".toList.take front.length := by rw [whole, List.take_left]
  have front_length := cut _ short (taken ▸ place)
  have q_eq : q = ⟨2, 1⟩ := by
    rw [List.length_append, front_length] at here
    rcases here with ⟨c, found⟩ | ⟨short, -⟩
    · exact (congrArg Prod.snd (Option.some.inj found)).symm
    · cases short
  have uncommented : e.Uncommented 1 lines tokens ⟨2, 1⟩ := by
    intro i line least below there
    obtain rfl : i = 0 := by
      dsimp only at below
      omega
    cases there
    refine ⟨rfl, ?_⟩
    rintro ⟨more, comment⟩
    cases comment
  obtain rfl := q_eq
  exact ⟨read, uncommented, right.mpr uncommented ▸ reports⟩

/-- A comment behind the first line of the command takes its line feed away: the place reported for
the second sign is in the comment. -/
theorem commented_fault_misplaced :
    let text := "<<set $a = // note\n= 1>>"
    ofText "d" standardCommands text =
        .error ((Cause.invalidExpression (.token "=")).placedAt ⟨1, 12⟩) ∧
      ∀ c, StandsIn 1 ((Line.ofChars text.toList).map Line.full) (c, ⟨1, 12⟩) → c = '/' := by
  refine ⟨errorIn_eq_some_iff.mp (by decide +kernel), ?_⟩
  rintro c ⟨i, j, line, there, written, place⟩
  obtain ⟨rfl, rfl⟩ : i = 0 ∧ j = 11 := by
    have lines := congrArg Position.line place
    have columns := congrArg Position.column place
    dsimp only at lines columns
    omega
  cases there
  exact (Option.some.inj written).symm

end Body
end Parley
