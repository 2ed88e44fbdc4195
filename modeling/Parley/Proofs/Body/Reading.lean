import Parley.Body.Parser
import Parley.Proofs.Outcome

/-!
What the reading of a body can do with its next item, told once: the ways in which an item is taken,
each with all that it asks for.
-/
namespace Parley.Body.Reading

/-- The commands that are allowed where the reading stands. -/
def allows (allowed : List String) (s : Reading) : List String :=
  match s.frames with
  | [] => allowed
  | _ :: _ => standardCommands

/-- Text that stands before the first reply counts, text behind it must be blank. -/
def withText (s : Reading) (t : Template) : Reading :=
  if s.body.replies.isEmpty then { s with body := s.body.addText t } else s

def withCommand (s : Reading) (c : Command) : Reading := { s with body := s.body.addCommand c }

def withReply (s : Reading) (r : Reply) (use : PointerUse) : Reading :=
  { s with
    body := s.body.addReply r
    nextReply := s.nextReply + 1
    uses := s.uses ++ [use] }

/-- How an item takes a reading of a body to the next. -/
inductive Takes (dialogue : String) (allowed : List String) (s : Reading) : Item → Reading → Prop
  | text {tokens : List Token}
      (fits : s.body.replies = [] ∨ (Item.template tokens).isBlank) :
      Takes dialogue allowed s (.text tokens) (s.withText (Item.template tokens))
  | set {tokens e : Enclosed} {t : Token} {a : Assignment}
      (named : tokens.named = .ok ("set", t, e)) (permitted : "set" ∈ s.allows allowed)
      (first : s.body.replies = []) (read : e.assignment = .ok a) :
      Takes dialogue allowed s (.command tokens) (s.withCommand (.set a))
  | action {tokens e : Enclosed} {t : Token} {found : Attributes} {a : Action}
      (named : tokens.named = .ok ("action", t, e)) (permitted : "action" ∈ s.allows allowed)
      (first : s.body.replies = []) (attributes : Attributes.ofCommand e = .ok found)
      (read : Action.ofAttributes found = .ok a) :
      Takes dialogue allowed s (.command tokens) (s.withCommand (.action a))
  | input {tokens e : Enclosed} {t : Token} {found : Attributes} {i : Input}
      (named : tokens.named = .ok ("input", t, e)) (permitted : "input" ∈ s.allows allowed)
      (first : s.body.replies = []) (attributes : Attributes.ofCommand e = .ok found)
      (read : Input.ofAttributes found = .ok i) :
      Takes dialogue allowed s (.command tokens) (s.withCommand (.input i))
  | openChoice {tokens e : Enclosed} {t : Token} {condition : Expr}
      (named : tokens.named = .ok ("if", t, e)) (permitted : "if" ∈ s.allows allowed)
      (read : e.condition "if" = .ok condition) :
      Takes dialogue allowed s (.command tokens) (s.enter e.start (.choice [] (some condition)))
  | openRandom {tokens e : Enclosed} {t : Token} {found : Attributes} {weight : Number}
      (named : tokens.named = .ok ("random", t, e)) (permitted : "random" ∈ s.allows allowed)
      (attributes : Attributes.ofCommand e = .ok found) (read : weightOf found = .ok weight) :
      Takes dialogue allowed s (.command tokens) (s.enter e.start (.random [] weight))
  | nextChoice {tokens e : Enclosed} {t : Token} {f : Frame} {rest : List Frame}
      {done : List IfClause} {condition next : Expr}
      (named : tokens.named = .ok ("elseif", t, e)) (inside : s.frames = f :: rest)
      (block : f.block = .choice done (some condition)) (read : e.condition "elseif" = .ok next) :
      Takes dialogue allowed s (.command tokens)
        (s.reopen f rest (.choice (done ++ [⟨condition, s.body.trim⟩]) (some next)))
  | otherwise {tokens e : Enclosed} {t : Token} {f : Frame} {rest : List Frame}
      {done : List IfClause} {condition : Expr}
      (named : tokens.named = .ok ("else", t, e)) (inside : s.frames = f :: rest)
      (block : f.block = .choice done (some condition)) (read : e.nameOnly "else" = .ok ()) :
      Takes dialogue allowed s (.command tokens)
        (s.reopen f rest (.choice (done ++ [⟨condition, s.body.trim⟩]) none))
  | closeChoice {tokens e : Enclosed} {t : Token} {f : Frame} {rest : List Frame}
      {done : List IfClause} {condition : Expr}
      (named : tokens.named = .ok ("endif", t, e)) (inside : s.frames = f :: rest)
      (block : f.block = .choice done (some condition)) (read : e.nameOnly "endif" = .ok ()) :
      Takes dialogue allowed s (.command tokens)
        (s.close f rest (.choice (done ++ [⟨condition, s.body.trim⟩]) none))
  | closeOtherwise {tokens e : Enclosed} {t : Token} {f : Frame} {rest : List Frame}
      {done : List IfClause}
      (named : tokens.named = .ok ("endif", t, e)) (inside : s.frames = f :: rest)
      (block : f.block = .choice done none) (read : e.nameOnly "endif" = .ok ()) :
      Takes dialogue allowed s (.command tokens)
        (s.close f rest (.choice done (some s.body.trim)))
  | nextRandom {tokens e : Enclosed} {t : Token} {f : Frame} {rest : List Frame}
      {done : List RandomClause} {weight next : Number} {found : Attributes}
      (named : tokens.named = .ok ("or", t, e)) (inside : s.frames = f :: rest)
      (block : f.block = .random done weight) (attributes : Attributes.ofCommand e = .ok found)
      (read : weightOf found = .ok next) :
      Takes dialogue allowed s (.command tokens)
        (s.reopen f rest (.random (done ++ [⟨weight, s.body.trim⟩]) next))
  | closeRandom {tokens e : Enclosed} {t : Token} {f : Frame} {rest : List Frame}
      {done : List RandomClause} {weight : Number} {found : Attributes}
      (named : tokens.named = .ok ("endrandom", t, e)) (inside : s.frames = f :: rest)
      (block : f.block = .random done weight) (attributes : Attributes.ofCommand e = .ok found) :
      Takes dialogue allowed s (.command tokens)
        (s.close f rest (.random (done ++ [⟨weight, s.body.trim⟩])))
  | reply {tokens : Enclosed} {r : Reply} {use : PointerUse}
      (read : replyOf dialogue s.nextReply tokens = .ok (r, use))
      (single : r.isAutoforward = false ∨ s.body.hasAutoforward = false) :
      Takes dialogue allowed s (.reply tokens) (s.withReply r use)

variable {dialogue : String} {allowed : List String} {s s' : Reading}

theorem permit_eq_ok_iff (allowed : List String) (name : String) (t : Token) :
    permit allowed name t = .ok () ↔ name ∈ allowed ∧ name ∈ commandNames := by
  simp only [permit, Bool.and_eq_true, List.contains_iff_mem]
  split
  · simp_all
  · rename_i outside
    split <;> simp [outside]

/-- What a command does that ends no clause of the innermost block. -/
theorem takes_of_permitted {tokens e : Enclosed} {name : String} {t : Token}
    (named : tokens.named = .ok (name, t, e))
    (h : s.permitted (s.allows allowed) name t e = .ok s') :
    Takes dialogue allowed s (.command tokens) s' := by
  simp only [permitted, Bool.and_eq_true, Bool.not_eq_true', bne_iff_ne] at h
  split at h
  · cases h
  rename_i behind
  rw [bind_eq_ok_iff] at h
  obtain ⟨⟨⟩, allowedHere, h⟩ := h
  obtain ⟨permitted, known⟩ := (permit_eq_ok_iff _ _ _).mp allowedHere
  have first : name ≠ "if" → name ≠ "random" → s.body.replies = [] := by
    intro notIf notRandom
    cases replies : s.body.replies with
    | nil => rfl
    | cons r others => exact (behind ⟨⟨by simp [replies], notIf⟩, notRandom⟩).elim
  unfold command at h
  split at h
  · rw [bind_eq_ok_iff] at h
    obtain ⟨condition, read, h⟩ := h
    cases h
    exact .openChoice named permitted read
  · rw [bind_eq_ok_iff] at h
    obtain ⟨found, attributes, h⟩ := h
    rw [bind_eq_ok_iff] at h
    obtain ⟨weight, read, h⟩ := h
    cases h
    exact .openRandom named permitted attributes read
  · rw [bind_eq_ok_iff] at h
    obtain ⟨a, read, h⟩ := h
    cases h
    exact .set named permitted (first (by decide) (by decide)) read
  · rw [bind_eq_ok_iff] at h
    obtain ⟨found, attributes, h⟩ := h
    rw [bind_eq_ok_iff] at h
    obtain ⟨a, read, h⟩ := h
    cases h
    exact .action named permitted (first (by decide) (by decide)) attributes read
  · rename_i notIf notRandom notSet notAction
    have isInput : name = "input" := by
      simp only [commandNames, List.mem_cons, List.not_mem_nil, or_false] at known
      rcases known with h | h | h | h | h
      · exact (notAction h).elim
      · exact (notIf h).elim
      · exact h
      · exact (notRandom h).elim
      · exact (notSet h).elim
    subst isInput
    rw [bind_eq_ok_iff] at h
    obtain ⟨found, attributes, h⟩ := h
    rw [bind_eq_ok_iff] at h
    obtain ⟨i, read, h⟩ := h
    cases h
    exact .input named permitted (first (by decide) (by decide)) attributes read

theorem takes_of_clause {tokens e : Enclosed} {name : String} {t : Token} {f : Frame}
    {rest : List Frame} (named : tokens.named = .ok (name, t, e)) (inside : s.frames = f :: rest)
    (among : name ∈ f.block.clauses) (h : s.clause f rest name e = .ok s') :
    Takes dialogue allowed s (.command tokens) s' := by
  unfold clause at h
  dsimp only at h
  split at h
  · rename_i done weight block
    rw [bind_eq_ok_iff] at h
    obtain ⟨found, attributes, h⟩ := h
    split at h
    · rename_i isEnd
      subst isEnd
      cases h
      exact .closeRandom named inside block attributes
    · rename_i notEnd
      have isOr : name = "or" := by
        rw [block] at among
        simpa [Block.clauses, randomClauses, notEnd] using among
      subst isOr
      rw [bind_eq_ok_iff] at h
      obtain ⟨next, read, h⟩ := h
      cases h
      exact .nextRandom named inside block attributes read
  · rename_i done condition block
    split at h
    · rename_i isElseif
      subst isElseif
      rw [bind_eq_ok_iff] at h
      obtain ⟨next, read, h⟩ := h
      cases h
      exact .nextChoice named inside block read
    · rename_i notElseif
      split at h
      · rename_i isElse
        subst isElse
        rw [bind_eq_ok_iff] at h
        obtain ⟨⟨⟩, read, h⟩ := h
        cases h
        exact .otherwise named inside block read
      · rename_i notElse
        have isEnd : name = "endif" := by
          rw [block] at among
          simpa [Block.clauses, choiceClauses, notElseif, notElse] using among
        subst isEnd
        rw [bind_eq_ok_iff] at h
        obtain ⟨⟨⟩, read, h⟩ := h
        cases h
        exact .closeChoice named inside block read
  · rename_i done block
    split at h
    · cases h
    · rename_i notElseif
      split at h
      · cases h
      · rename_i notElse
        have isEnd : name = "endif" := by
          rw [block] at among
          simpa [Block.clauses, choiceClauses, notElseif, notElse] using among
        subst isEnd
        rw [bind_eq_ok_iff] at h
        obtain ⟨⟨⟩, read, h⟩ := h
        cases h
        exact .closeOtherwise named inside block read

theorem takes_of_step {item : Item} (h : s.step dialogue allowed item = .ok s') :
    Takes dialogue allowed s item s' := by
  cases item with
  | text tokens =>
    simp only [step] at h
    split at h
    · rename_i none
      cases h
      have taken : Takes dialogue allowed s (.text tokens) (s.withText (Item.template tokens)) :=
        .text (.inl (List.isEmpty_iff.mp none))
      simpa [withText, none] using taken
    · rename_i some
      split at h
      · rename_i blank
        cases h
        have taken : Takes dialogue allowed s (.text tokens) (s.withText (Item.template tokens)) :=
          .text (.inr blank)
        simpa [withText, some] using taken
      · cases h
  | command tokens =>
    rw [step, bind_eq_ok_iff] at h
    obtain ⟨⟨name, t, e⟩, named, h⟩ := h
    dsimp only at h
    split at h
    · rename_i outside
      exact takes_of_permitted named (by simpa [allows, outside] using h)
    · rename_i f rest inside
      split at h
      · rename_i among
        exact takes_of_clause named inside (List.contains_iff_mem.mp among) h
      · split at h
        · cases h
        · exact takes_of_permitted named (by simpa [allows, inside] using h)
  | reply tokens =>
    rw [step, bind_eq_ok_iff] at h
    obtain ⟨⟨r, use⟩, read, h⟩ := h
    dsimp only at h
    split at h
    · cases h
    · rename_i single
      cases h
      refine .reply read ?_
      cases own : r.isAutoforward
      · exact .inl rfl
      · exact .inr (by simpa [own] using single)
  | stray t => cases h

theorem step_of_other {tokens e : Enclosed} {name : String} {t : Token}
    (named : tokens.named = .ok (name, t, e)) (other : name ∉ choiceClauses ++ randomClauses) :
    s.step dialogue allowed (.command tokens) = s.permitted (s.allows allowed) name t e := by
  have outside : ∀ f : Frame, name ∉ f.block.clauses := by
    intro f among
    apply other
    cases block : f.block with
    | choice done guard => simp_all [Block.clauses]
    | random done weight => simp_all [Block.clauses]
  simp only [step, named, ok_bind]
  cases inside : s.frames with
  | nil => simp [allows, inside]
  | cons f rest =>
    simp only [allows, inside, List.contains_iff_mem, outside f, other, ↓reduceIte]

theorem step_of_clause {tokens e : Enclosed} {name : String} {t : Token} {f : Frame}
    {rest : List Frame} (named : tokens.named = .ok (name, t, e)) (inside : s.frames = f :: rest)
    (among : name ∈ f.block.clauses) :
    s.step dialogue allowed (.command tokens) = s.clause f rest name e := by
  simp only [step, named, ok_bind, inside, List.contains_iff_mem, among, ↓reduceIte]

/-- A permitted command is read where no reply stands in front of it, a block also behind one. -/
theorem permitted_eq {e : Enclosed} {name : String} {t : Token} {allowed : List String}
    (permitted : name ∈ allowed) (known : name ∈ commandNames)
    (fits : s.body.replies = [] ∨ name = "if" ∨ name = "random") :
    s.permitted allowed name t e = s.command name e := by
  have pass : permit allowed name t = .ok () := (permit_eq_ok_iff _ _ _).mpr ⟨permitted, known⟩
  unfold Reading.permitted
  rcases fits with none | rfl | rfl
  · simp [none, pass]
  · simp [pass]
  · simp [pass]

theorem step_of_takes {item : Item} (h : Takes dialogue allowed s item s') :
    s.step dialogue allowed item = .ok s' := by
  cases h with
  | text fits =>
    rcases fits with none | blank
    · simp [step, withText, none]
    · by_cases none : s.body.replies = []
      · simp [step, withText, none]
      · simp [step, withText, none, blank]
  | set named permitted first read =>
    rw [step_of_other named (by decide), permitted_eq permitted (by decide) (.inl first)]
    simp [command, read, withCommand]
  | action named permitted first attributes read =>
    rw [step_of_other named (by decide), permitted_eq permitted (by decide) (.inl first)]
    simp [command, attributes, read, withCommand]
  | input named permitted first attributes read =>
    rw [step_of_other named (by decide), permitted_eq permitted (by decide) (.inl first)]
    simp [command, attributes, read, withCommand]
  | openChoice named permitted read =>
    rw [step_of_other named (by decide), permitted_eq permitted (by decide) (.inr (.inl rfl))]
    simp [command, read]
  | openRandom named permitted attributes read =>
    rw [step_of_other named (by decide), permitted_eq permitted (by decide) (.inr (.inr rfl))]
    simp [command, attributes, read]
  | nextChoice named inside block read =>
    rw [step_of_clause named inside (by simp [block, Block.clauses, choiceClauses])]
    simp [clause, block, read]
  | otherwise named inside block read =>
    rw [step_of_clause named inside (by simp [block, Block.clauses, choiceClauses])]
    simp [clause, block, read]
  | closeChoice named inside block read =>
    rw [step_of_clause named inside (by simp [block, Block.clauses, choiceClauses])]
    simp [clause, block, read]
  | closeOtherwise named inside block read =>
    rw [step_of_clause named inside (by simp [block, Block.clauses, choiceClauses])]
    simp [clause, block, read]
  | nextRandom named inside block attributes read =>
    rw [step_of_clause named inside (by simp [block, Block.clauses, randomClauses])]
    simp [clause, block, attributes, read]
  | closeRandom named inside block attributes =>
    rw [step_of_clause named inside (by simp [block, Block.clauses, randomClauses])]
    simp [clause, block, attributes]
  | reply read single =>
    simp only [step, read, ok_bind]
    split
    · rename_i both
      rcases single with h | h <;> simp [h] at both
    · rfl

theorem step_eq_ok_iff {item : Item} :
    s.step dialogue allowed item = .ok s' ↔ Takes dialogue allowed s item s' :=
  ⟨takes_of_step, step_of_takes⟩

end Parley.Body.Reading

namespace Parley.Attributes

/-- How attributes are collected: a name, a value, and so on until the command is closed. -/
inductive Collects (command : Enclosed) :
    List (String × Attribute) → List Token → List (String × Attribute) → Prop
  | stop {found : List (String × Attribute)} (closed : command.stop.isSome) :
      Collects command found [] found
  | entry {found entries : List (String × Attribute)} {t v : Token} {rest others : List Token}
      {name value : String} {quoted : Template} (text : t.content = .text value)
      (named : nameIn (stripChars value.toList) t.position = .ok name)
      (blank : Token.skipBlank rest = v :: others) (quote : v.content = .quoted quoted)
      (later : Collects command (Assoc.insert name ⟨quoted, v.source, v.position⟩ found)
        (Token.skipBlank others) entries) :
      Collects command found (t :: rest) entries

theorem collects_of_collect {command : Enclosed} {found entries : List (String × Attribute)}
    {tokens : List Token} (read : collect command found tokens = .ok entries) :
    Collects command found tokens entries := by
  fun_induction collect command found tokens with
  | case1 found closed =>
    cases read
    exact .stop closed
  | case2 => cases read
  | case3 found t rest value text ih =>
    obtain ⟨name, named, read⟩ := bind_eq_ok_iff.mp read
    split at read
    · split at read <;> cases read
    · rename_i v others blank
      split at read
      · rename_i quoted quote
        exact .entry text named blank quote (ih name v others blank quoted read)
      · cases read
  | case4 => cases read

end Parley.Attributes

namespace Parley.Body

/-- The statement in a section that may be missing. -/
def statementIn : Option Section → Except ScriptError (Option (List (Segment Input)))
  | some s => statementOf s.tokens
  | none => .ok none

/-- The commands in a section that may be missing. -/
def commandsIn : Option Section → Except ScriptError (List ReplyCommand)
  | some s => replyCommands (Item.ofTokens s.tokens)
  | none => .ok []

/-- A reply comes from two sections or three, or from its pointer alone. -/
theorem sections_of_replyOf {dialogue : String} {id : Nat} {e : Enclosed} {r : Reply}
    {use : PointerUse} (read : replyOf dialogue id e = .ok (r, use)) :
    ∃ (statement : Option Section) (pointer : Section) (commands : Option Section)
      (more : List Section),
      sections e 2 [] e.inner = .ok (statement.toList ++ pointer :: (commands.toList ++ more)) ∧
        statementIn statement = .ok r.statement ∧ pointerOf dialogue pointer = .ok use ∧
          commandsIn commands = .ok r.commands ∧ r.pointer = use.pointer ∧ r.id = id := by
  have finish (statement : Option Section) (pointer : Section) (commands : Option Section)
      (rest : (do
        let said ← statementIn statement
        let use ← pointerOf dialogue pointer
        let done ← commandsIn commands
        return ((⟨id, said, use.pointer, done⟩ : Reply), use)) = Except.ok (r, use)) :
      statementIn statement = .ok r.statement ∧ pointerOf dialogue pointer = .ok use ∧
        commandsIn commands = .ok r.commands ∧ r.pointer = use.pointer ∧ r.id = id := by
    rw [bind_eq_ok_iff] at rest
    obtain ⟨said, first, rest⟩ := rest
    rw [bind_eq_ok_iff] at rest
    obtain ⟨found, second, rest⟩ := rest
    rw [bind_eq_ok_iff] at rest
    obtain ⟨done, third, rest⟩ := rest
    cases rest
    exact ⟨first, second, third, rfl, rfl⟩
  unfold replyOf at read
  rw [bind_eq_ok_iff] at read
  obtain ⟨parts, cut, read⟩ := read
  match parts with
  | [] => cases read
  | [pointer] => exact ⟨none, pointer, none, [], cut, finish none pointer none read⟩
  | [statement, pointer] =>
    exact ⟨some statement, pointer, none, [], cut, finish (some statement) pointer none read⟩
  | statement :: pointer :: commands :: more =>
    exact ⟨some statement, pointer, some commands, more, cut,
      finish (some statement) pointer (some commands) read⟩

end Parley.Body
