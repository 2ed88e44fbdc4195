import Parley.Proofs.Body.Cutting
import Parley.Proofs.Body.Markers

/-!
Blocks that are not closed. Where a body breaks off between two of its items, or goes on with a
clause that the innermost open block does not have, the block is reported at the place where it was
opened.
-/
namespace Parley

/-- The open blocks behind an item, the innermost in front: their names and where they start. -/
def Item.blocksBehind (blocks : List (String × Position)) : Item → List (String × Position)
  | .command e =>
      match e.named with
      | .ok (name, _) =>
          if name = "if" ∨ name = "random" then (name, e.start) :: blocks
          else if name = "endif" ∨ name = "endrandom" then blocks.tail
          else blocks
      | .error _ => blocks
  | .text _ | .reply _ | .stray _ => blocks

/-- The blocks that some tokens leave open, the innermost in front. -/
def Token.openBlocks (tokens : List Token) : List (String × Position) :=
  (Item.ofTokens tokens).foldl Item.blocksBehind []

/-! Items of tokens that are broken off -/

section Append

variable {closing : TokenKind} {tokens rest : List Token}

theorem Enclosed.upTo_append (start : Position)
    (closed : tokens.dropWhile (·.kind != closing) ≠ []) :
    upTo closing start (tokens ++ rest) = upTo closing start tokens := by
  obtain ⟨t, more, there⟩ := List.exists_cons_of_ne_nil closed
  rw [upTo, upTo, takeWhile_append_some closed, dropWhile_append_some closed, there,
    List.cons_append, List.head?_cons, List.head?_cons]

theorem Token.behind_append (closed : tokens.dropWhile (·.kind != closing) ≠ []) :
    behind closing (tokens ++ rest) = behind closing tokens ++ rest := by
  rw [behind, dropWhile_append_some closed, List.tail_append_of_ne_nil closed]
  rfl

end Append

namespace Item

/-- Whether some items are those of tokens which others follow: those of the first with those of the
others behind them, or joined to them by text on both sides. -/
def Continued (first : List Item) (rest : List Token) (all : List Item) : Prop :=
  all = first ++ ofTokens rest ∨
    ∃ items run, first = items ++ [.text run] ∧
      all = items ++ .text (run ++ rest.takeWhile Token.isText) ::
        ofTokens (rest.dropWhile Token.isText)

theorem Continued.cons {first all : List Item} {rest : List Token} (item : Item)
    (continued : Continued first rest all) : Continued (item :: first) rest (item :: all) := by
  rcases continued with rfl | ⟨items, run, rfl, rfl⟩
  · exact .inl rfl
  · exact .inr ⟨item :: items, run, rfl, rfl⟩

theorem continued_text {t : Token} {more rest : List Token} (isText : t.isText)
    (continued : Continued (ofTokens (more.dropWhile Token.isText)) rest
      (ofTokens (more.dropWhile Token.isText ++ rest))) :
    Continued (ofTokens (t :: more)) rest (ofTokens (t :: more ++ rest)) := by
  rw [List.cons_append, ofTokens_text isText, ofTokens_text isText]
  by_cases all : more.dropWhile Token.isText = []
  · have texts := List.dropWhile_eq_nil_iff.mp all
    have run : more.takeWhile Token.isText = more := List.takeWhile_eq_self_iff.mpr texts
    refine .inr ⟨[], t :: more, ?_, ?_⟩
    · rw [all, run, ofTokens, List.nil_append]
    · rw [List.takeWhile_append_of_pos texts, dropWhile_append_nil all, List.nil_append,
        List.cons_append]
  · rw [takeWhile_append_some all, dropWhile_append_some all]
    exact continued.cons _

/-- The items of tokens that leave nothing open stay the same in front of others, but for text that
goes on. -/
theorem continued_ofTokens {front : List Token} (rest : List Token)
    (carries : Tokenizer.initial.Carries (front.map (·.content)) .initial) :
    Continued (ofTokens front) rest (ofTokens (front ++ rest)) := by
  have isText {t : Token} (textual : t.content.isTextual) : t.isText :=
    Token.isText_iff.mpr textual
  fun_induction ofTokens front with
  | case1 => exact .inl rfl
  | case2 t more value content ih =>
    have text := isText (by rw [content]; rfl)
    rw [← ofTokens_text text]
    exact continued_text text (ih (Token.openings_behind_text (carries.tail content)).2)
  | case3 t more name content ih =>
    have text := isText (by rw [content]; rfl)
    rw [← ofTokens_text text]
    exact continued_text text (ih (Token.openings_behind_text (carries.tail content)).2)
  | case4 t more content ih =>
    obtain ⟨_, last, later, isOpen | ⟨closed, rfl⟩⟩ :=
      Token.openings_behind_command (carries.tail content)
    · cases isOpen.2
    · rw [List.cons_append, ofTokens, content]
      dsimp only
      rw [Enclosed.upTo_append _ closed, Token.behind_append closed]
      exact (ih later).cons _
  | case5 t more content ih =>
    obtain ⟨_, last, later, isOpen | ⟨closed, rfl⟩⟩ :=
      Token.openings_behind_reply rfl (carries.tail content)
    · cases isOpen.2
    · rw [List.cons_append, ofTokens, content]
      dsimp only
      rw [Enclosed.upTo_append _ closed, Token.behind_append closed]
      exact (ih later).cons _
  | case6 t more notText notVar notCommand notReply ih =>
    exact (Tokenizer.no_stray carries.1 notText notVar notCommand notReply).elim

/-- What is no text starts an item of its own. -/
theorem ofTokens_append {front rest : List Token}
    (carries : Tokenizer.initial.Carries (front.map (·.content)) .initial)
    (stop : ∀ t ∈ rest.head?, t.isText = false) :
    ofTokens (front ++ rest) = ofTokens front ++ ofTokens rest := by
  rcases continued_ofTokens rest carries with apart | ⟨items, run, same, joined⟩
  · exact apart
  · have none : rest.takeWhile Token.isText = [] :=
      @takeWhile_append_of_stop _ _ [] _ (by simp) stop
    have all : rest.dropWhile Token.isText = rest :=
      @dropWhile_append_of_stop _ _ [] _ (by simp) stop
    rw [joined, same, none, all, List.append_nil, List.append_assoc]
    rfl

theorem isBlank_template_of_append {run more : List Token}
    (blank : (template (run ++ more)).isBlank) : (template run).isBlank := by
  rw [Template.isBlank_iff, atoms_template, List.flatMap_append] at blank
  rw [Template.isBlank_iff, atoms_template]
  exact fun a member => blank a (List.mem_append_left _ member)

end Item

namespace Body.Reading

variable {dialogue : String} {allowed : List String}

/-- A reading that takes some tokens takes those in front, if they leave no marker open. -/
theorem takes_front {front rest : List Token} {s s' : Reading}
    (carries : Tokenizer.initial.Carries (front.map (·.content)) .initial)
    (run : (Item.ofTokens (front ++ rest)).foldlM (step dialogue allowed) s = .ok s') :
    ∃ mid, (Item.ofTokens front).foldlM (step dialogue allowed) s = .ok mid := by
  rcases Item.continued_ofTokens rest carries with apart | ⟨items, text, same, joined⟩
  · rw [apart, List.foldlM_append] at run
    obtain ⟨mid, first, _⟩ := bind_eq_ok_iff.mp run
    exact ⟨mid, first⟩
  · rw [joined, List.foldlM_append] at run
    obtain ⟨mid, first, later⟩ := bind_eq_ok_iff.mp run
    obtain ⟨next, taken, _⟩ := foldlM_cons_eq_ok_iff.mp later
    cases takes_of_step taken with
    | text fits =>
      have shorter : Takes dialogue allowed mid (.text text) (mid.withText (Item.template text)) :=
        .text (fits.imp id Item.isBlank_template_of_append)
      refine ⟨mid.withText (Item.template text), ?_⟩
      rw [same, List.foldlM_append, first, ok_bind, List.foldlM_cons, step_of_takes shorter]
      rfl

/-- The blocks that a reading has opened, the innermost in front. -/
def openBlocks (s : Reading) : List (String × Position) :=
  s.frames.map fun f => (f.block.name, f.opener)

/-- Each item opens and closes blocks as its name tells. -/
theorem openBlocks_of_takes {s s' : Reading} {item : Item}
    (takes : Takes dialogue allowed s item s') :
    s'.openBlocks = item.blocksBehind s.openBlocks := by
  have blocks {tokens e : Enclosed} {name : String} {t : Token}
      (named : tokens.named = .ok (name, t, e)) :
      (Item.command tokens).blocksBehind s.openBlocks =
        if name = "if" ∨ name = "random" then (name, e.start) :: s.openBlocks
        else if name = "endif" ∨ name = "endrandom" then s.openBlocks.tail
        else s.openBlocks := by
    rw [Item.blocksBehind, named, (Enclosed.named_eq_ok named).1]
  cases takes with
  | text =>
    unfold withText
    split <;> rfl
  | set named | action named | input named =>
    rw [blocks named]
    rfl
  | openChoice named | openRandom named =>
    rw [blocks named]
    rfl
  | @nextChoice tokens e t f rest done condition next named inside block =>
    rw [blocks named]
    simp [openBlocks, reopen, inside, block, Block.name]
  | @otherwise tokens e t f rest done condition named inside block =>
    rw [blocks named]
    simp [openBlocks, reopen, inside, block, Block.name]
  | @nextRandom tokens e t f rest done weight next found named inside block =>
    rw [blocks named]
    simp [openBlocks, reopen, inside, block, Block.name]
  | closeChoice named inside | closeOtherwise named inside | closeRandom named inside =>
    rw [blocks named]
    simp [openBlocks, close, inside]
  | reply => rfl

theorem openBlocks_of_fold {s s' : Reading} {items : List Item}
    (run : items.foldlM (step dialogue allowed) s = .ok s') :
    s'.openBlocks = items.foldl Item.blocksBehind s.openBlocks := by
  induction items generalizing s with
  | nil =>
    cases run
    rfl
  | cons item rest ih =>
    obtain ⟨next, taken, later⟩ := foldlM_cons_eq_ok_iff.mp run
    rw [List.foldl_cons, ← openBlocks_of_takes (takes_of_step taken)]
    exact ih later

end Body.Reading
namespace Body

/-- Whether a command continues or ends a block, but none of the given name. -/
def IsForeign (name clause : String) : Prop :=
  name = "if" ∧ (clause = "or" ∨ clause = "endrandom") ∨
    name = "random" ∧ (clause = "elseif" ∨ clause = "else" ∨ clause = "endif")

variable {dialogue : String} {allowed : List String}

/-- The innermost block that some tokens leave open is the first of the reading. -/
theorem frame_of_openBlocks {front : List Token} {mid : Reading} {name : String}
    {opener : Position} {others : List (String × Position)}
    (run : (Item.ofTokens front).foldlM (Reading.step dialogue allowed) (.start 1) = .ok mid)
    (opened : Token.openBlocks front = (name, opener) :: others) :
    ∃ f rest, mid.frames = f :: rest ∧ f.block.name = name ∧ f.opener = opener := by
  have blocks : mid.openBlocks = Token.openBlocks front := Reading.openBlocks_of_fold run
  rw [opened] at blocks
  obtain ⟨f, rest, frames, head, _⟩ := List.map_eq_cons_iff.mp blocks
  obtain ⟨named, placed⟩ := Prod.mk.inj head
  exact ⟨f, rest, frames, named, placed⟩

theorem Reading.step_of_foreign {s : Reading} {tokens e : Enclosed} {clause : String} {t : Token}
    {f : Frame} {rest : List Frame} (named : tokens.named = .ok (clause, t, e))
    (inside : s.frames = f :: rest) (foreign : IsForeign f.block.name clause) :
    s.step dialogue allowed (.command tokens) =
      .error ((Cause.openBlock f.block.name).placedAt f.opener) := by
  have other : f.block.clauses.contains clause = false ∧
      (choiceClauses ++ randomClauses).contains clause := by
    cases block : f.block with
    | choice done guard =>
      rw [block] at foreign
      rcases foreign with ⟨_, rfl | rfl⟩ | ⟨named, _⟩
      · simp [Block.clauses, choiceClauses, randomClauses]
      · simp [Block.clauses, choiceClauses, randomClauses]
      · simp [Block.name] at named
    | random done weight =>
      rw [block] at foreign
      rcases foreign with ⟨named, _⟩ | ⟨_, rfl | rfl | rfl⟩
      · simp [Block.name] at named
      · simp [Block.clauses, choiceClauses, randomClauses]
      · simp [Block.clauses, choiceClauses, randomClauses]
      · simp [Block.clauses, choiceClauses, randomClauses]
  simp only [step, named, ok_bind, inside, other, Bool.false_eq_true, ↓reduceIte]

/-- The name of a command is read behind the blanks that it starts with. -/
theorem named_of_blanks {start : Position} {blanks more : List Token} {t : Token} {value : String}
    (blank : ∀ u ∈ blanks, u.isBlank) (text : t.content = .text value) (some : t.isBlank = false) :
    ∃ e, (Enclosed.upTo .commandEnd start (blanks ++ t :: more)).named =
      .ok (String.ofList (firstWord t.source.toList).1, t, e) := by
  have kind (u : Token) (value : String) (content : u.content = .text value) :
      (u.kind != .commandEnd) = true := by
    rw [Token.kind, content]
    rfl
  have blanks_kind : ∀ u ∈ blanks, (u.kind != .commandEnd) = true := by
    intro u member
    have here := blank u member
    unfold Token.isBlank at here
    split at here
    · rename_i value content
      exact kind u value content
    · cases here
  have inner : (Enclosed.upTo .commandEnd start (blanks ++ t :: more)).inner =
      blanks ++ t :: more.takeWhile (·.kind != .commandEnd) := by
    simp only [Enclosed.upTo, List.takeWhile_append_of_pos blanks_kind, List.takeWhile_cons,
      kind t value text, ↓reduceIte]
  have skipped : Token.skipBlank (blanks ++ t :: more.takeWhile (·.kind != .commandEnd)) =
      t :: more.takeWhile (·.kind != .commandEnd) :=
    dropWhile_append_of_stop blank (by simpa using some)
  simp only [Enclosed.named, inner, skipped, text]
  exact ⟨_, rfl⟩

/-- A body that is broken off between two items inside a block, or goes on with a clause that the
block does not have, is refused for the innermost open block, at its start. -/
theorem unclosed_reported_at_opener {tokens front rest : List Token} {final : Tokenizer} {b : Body}
    {uses : List PointerUse} {name : String} {opener : Position}
    {others : List (String × Position)} (produced : Tokenizer.Produced final tokens)
    (read : ofTokens dialogue allowed tokens = .ok (b, uses)) (cut : tokens = front ++ rest)
    (outside : ¬ Token.InCommand front ∧ ¬ Token.InReply front)
    (opened : Token.openBlocks front = (name, opener) :: others) :
    ofTokens dialogue allowed front = .error ((Cause.openBlock name).placedAt opener) ∧
      ∀ start blanks t value clause more, start.content = .commandStart →
        (∀ u ∈ blanks, u.isBlank) → t.content = .text value → t.isBlank = false →
        (firstWord t.source.toList).1 = clause.toList → IsForeign name clause →
        ofTokens dialogue allowed (front ++ start :: (blanks ++ t :: more)) =
          .error ((Cause.openBlock name).placedAt opener) := by
  obtain ⟨s, run, _⟩ := bind_eq_ok_iff.mp read
  have carries := Tokenizer.carries_of_produced produced
  rw [cut, List.map_append] at carries
  obtain ⟨⟨inCommand, inReply⟩, before, _⟩ := Tokenizer.carries_append.mp carries
  have command := Tokenizer.flag_iff_leaveOpen Tokenizer.tracks_commands rfl before
  have reply := Tokenizer.flag_iff_leaveOpen Tokenizer.tracks_replies rfl before
  obtain rfl : inCommand = false := Bool.eq_false_iff.mpr (mt command.mp outside.1)
  obtain rfl : inReply = false := Bool.eq_false_iff.mpr (mt reply.mp outside.2)
  rw [cut] at run
  obtain ⟨mid, first⟩ := Reading.takes_front before run
  obtain ⟨f, rest, inside, rfl, rfl⟩ := frame_of_openBlocks first opened
  constructor
  · rw [ofTokens, first, ok_bind, Reading.finish, inside]
  · intro start blanks t value clause more opens blank text some word foreign
    obtain ⟨e, named⟩ := @named_of_blanks start.position blanks more t value blank text some
    rw [word, String.ofList_toList] at named
    have items : Item.ofTokens (front ++ start :: (blanks ++ t :: more)) = Item.ofTokens front ++
        .command (.upTo .commandEnd start.position (blanks ++ t :: more)) ::
          Item.ofTokens (Token.behind .commandEnd (blanks ++ t :: more)) := by
      rw [Item.ofTokens_append before]
      · rw [Item.ofTokens, opens]
      · intro u head
        cases head
        rw [Token.isText, Token.kind, opens]
        rfl
    rw [ofTokens, items, List.foldlM_append, first, ok_bind, List.foldlM_cons,
      Reading.step_of_foreign named inside foreign]
    rfl

/-- A `random` inside an `if` is reported in the place of the `if`, at the end and at an `else`. -/
theorem unclosed_reported_at_random_in_if :
    ∃ tokens b uses, Tokenizer.readText "<<if true>>\n<<random>>b<<endrandom>><<endif>>" =
        .ok tokens ∧
      ofTokens "d" standardCommands tokens = .ok (b, uses) ∧
      ofTokens "d" standardCommands (tokens.take 8) =
        .error ((Cause.openBlock "random").placedAt ⟨2, 1⟩) ∧
      ∀ more, ofTokens "d" standardCommands (tokens.take 8 ++
          ⟨.commandStart, "<<", ⟨3, 1⟩⟩ :: ([] ++ ⟨.text "else", "else", ⟨3, 3⟩⟩ :: more)) =
        .error ((Cause.openBlock "random").placedAt ⟨2, 1⟩) := by
  have summary : (do
      let tokens ← (Tokenizer.readText
        "<<if true>>\n<<random>>b<<endrandom>><<endif>>").toOption
      let read ← (ofTokens "d" standardCommands tokens).toOption
      let front := tokens.take 8
      return (decide (Token.InCommand front), decide (Token.InReply front),
        Token.openBlocks front)) =
      some (false, false, [("random", ⟨2, 1⟩), ("if", ⟨1, 1⟩)]) := by
    decide +kernel
  simp only [bind, pure, Option.bind_eq_some_iff, toOption_eq_some_iff, Option.some.injEq,
    Prod.mk.injEq, decide_eq_false_iff_not] at summary
  obtain ⟨tokens, cut, ⟨b, uses⟩, read, outside, apart, opened⟩ := summary
  obtain ⟨final, produced⟩ := Tokenizer.produced_of_readText cut
  obtain ⟨first, second⟩ := unclosed_reported_at_opener produced read
    (List.take_append_drop 8 tokens).symm ⟨outside, apart⟩ opened
  refine ⟨tokens, b, uses, cut, read, first, fun more => ?_⟩
  refine second _ [] _ "else" "else" more rfl (by simp) rfl (by decide) (by decide) ?_
  exact .inr ⟨rfl, .inr (.inl rfl)⟩

end Body
end Parley
