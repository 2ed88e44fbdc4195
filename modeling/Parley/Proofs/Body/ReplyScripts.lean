import Parley.Proofs.Body.Alone
import Parley.Proofs.Body.Inlaid

/-!
The scripts of replies. A reply whose statement and commands are each read from what is written of
them alone is read from its own script, unless it has commands and no statement.
-/
namespace Parley

open Tokenizer

/-! Scripts of one item -/

namespace Item

/-- A command with nothing around it is the only item of its tokens. -/
theorem ofTokens_enclose {inner : List Piece} {tokens : List Token} (encloses : Encloses inner)
    (cut : Cut (enclose inner) tokens) : ∃ start inside stop, Cut inner inside ∧
      ofTokens tokens = [.command ⟨start, inside, some stop⟩] := by
  obtain ⟨start, inside, stop, behind, here, rest, _, more, rfl, upTo, after⟩ :=
    Reader.enclosed_of_cut (by decide) encloses.no_end cut rfl
  have nothing : behind = [] := cut_nil rest
  exact ⟨start, inside, stop, here, by simp [ofTokens, upTo, after, nothing]⟩

/-- A reply with nothing around it is the only item of its tokens. -/
theorem ofTokens_replyPieces {inner : List Piece} {tokens : List Token}
    (plain : ∀ p ∈ inner, p.hasKind .replyEnd = false) (cut : Cut (Body.replyPieces inner) tokens) :
    ∃ start inside stop, Cut inner inside ∧
      ofTokens tokens = [.reply ⟨start, inside, some stop⟩] := by
  obtain ⟨start, inside, stop, behind, here, rest, _, more, rfl, upTo, after⟩ :=
    Reader.enclosed_of_cut (by decide) plain cut rfl
  have nothing : behind = [] := cut_nil rest
  exact ⟨start, inside, stop, here, by simp [ofTokens, upTo, after, nothing]⟩

end Item

/-! Commands -/

/-- Whether a command of a reply is read alone from what is written of it. -/
def ReplyCommand.ReadsBack (c : ReplyCommand) : Prop :=
  ∃ tokens, readText c.toScript = .ok tokens ∧ Body.replyCommands (Item.ofTokens tokens) = .ok [c]

/-- The tokens of what is written of a command are cut from its pieces, with its markers around
them. -/
theorem ReplyCommand.readText_of_pieces {c : ReplyCommand} {inner : List Piece}
    (encloses : Encloses inner) (source : sourceOf (enclose inner) = c.toScript.toList) :
    ∃ tokens inside start stop, readText c.toScript = .ok tokens ∧ Cut inner inside ∧
      Item.ofTokens tokens = [.command ⟨start, inside, some stop⟩] := by
  have writes := @writes_enclose false _ _ inner encloses writes_nil
  rw [List.append_nil, List.append_nil] at writes
  obtain ⟨tokens, accepted, cut⟩ := readText_of_writes writes
  rw [source, String.ofList_toList] at accepted
  obtain ⟨start, inside, stop, here, only⟩ := Item.ofTokens_enclose encloses cut
  exact ⟨tokens, inside, start, stop, accepted, here, only⟩

theorem ReplyCommand.readsBack_of_pieces {c : ReplyCommand} {inner : List Piece}
    (isCommand : Body.IsReplyCommand c inner) : c.ReadsBack := by
  obtain ⟨tokens, inside, start, stop, accepted, cut, only⟩ :=
    readText_of_pieces isCommand.encloses isCommand.source
  refine ⟨tokens, accepted, ?_⟩
  rw [only, Body.replyCommands, isCommand.read inside start stop cut]
  rfl

/-- What a command is read as alone it is read as from some tokens of its pieces. -/
theorem ReplyCommand.ReadsBack.read {c : ReplyCommand} {inner : List Piece}
    (encloses : Encloses inner) (source : sourceOf (enclose inner) = c.toScript.toList)
    (back : c.ReadsBack) : ∃ tokens start stop, Cut inner tokens ∧
      Body.replyCommand ⟨start, tokens, some stop⟩ = .ok c := by
  obtain ⟨tokens, accepted, read⟩ := back
  obtain ⟨_, inside, start, stop, again, cut, only⟩ :=
    ReplyCommand.readText_of_pieces encloses source
  rw [accepted] at again
  cases again
  rw [only, Body.replyCommands, bind_eq_ok_iff] at read
  obtain ⟨command, first, same⟩ := read
  cases same
  exact ⟨inside, start, stop, cut, first⟩

theorem Enclosed.nameAndExpr_of_assignment {e : Enclosed} {s : Assignment}
    (read : e.assignment = .ok s) : e.nameAndExpr = .ok ("set", some s.expr) := by
  obtain ⟨found, given, read⟩ := bind_eq_ok_iff.mp read
  have named := Enclosed.expr_eq_ok_iff.mp given
  split at read
  · split at read
    · cases read
    · cases read
      exact named
  · cases read

namespace Body

/-- An assignment that is read alone from what is written of it is so from all that its pieces can
be cut into. -/
theorem exists_setPieces {s : Assignment} (parsed : s.expr.Parsed)
    (pure : s.value.assigns = false) (back : (ReplyCommand.set s).ReadsBack) :
    ∃ inner, IsReplyCommand (.set s) inner := by
  have named : isName "set".toList := by decide
  have written : s.toScript.toList =
      '<' :: '<' :: ("set".toList ++ ' ' :: s.expr.toText.toList ++ ['>', '>']) := by
    simp [Assignment.toScript]
  have inlaid : Inlaid (some '>') s.expr.toText.toList :=
    Expr.tidy_of_parsed parsed _ (by rintro c ⟨⟩; rfl)
  rcases inlaid.renders_or_interrupted with renders | interrupted
  · -- no line ends in it, so that only the reading of its expression is left open
    obtain ⟨inner, encloses, source, names, reads⟩ := @exists_typedCommand "set" _ _
      (fun e => ∀ found, e.nameAndExpr = .ok ("set", some found) ↔
        Expr.parseChars (' ' :: s.expr.toText.toList) = .ok found) named renders written
      fun source cut _ => Enclosed.nameAndExpr_eq_some_iff named isNameChar_of_head source cut
    have source : sourceOf (enclose inner) = (ReplyCommand.set s).toScript.toList := source
    have command {tokens : List Token} {start stop : Position} (cut : Cut inner tokens) :
        replyCommand ⟨start, tokens, some stop⟩ =
          (⟨start, tokens, some stop⟩ : Enclosed).assignment.map .set := by
      obtain ⟨t, name⟩ := names tokens start stop cut
      have allowed : permit ["action", "set"] "set" t = .ok () := rfl
      simp only [replyCommand, name, ok_bind, allowed]
      cases (⟨start, tokens, some stop⟩ : Enclosed).assignment <;> rfl
    obtain ⟨tokens, start, stop, cut, read⟩ := back.read encloses source
    rw [command cut, map_eq_ok_iff] at read
    obtain ⟨_, assigned, same⟩ := read
    cases same
    have accepted := (reads _ _ _ cut s.expr).mp (Enclosed.nameAndExpr_of_assignment assigned)
    refine ⟨inner, encloses, source, fun tokens start stop cut => ?_⟩
    have given := (reads tokens start stop cut s.expr).mpr accepted
    rw [command cut, Enclosed.assignment_of_nameAndExpr pure given]
    rfl
  · obtain ⟨tokens, accepted, _⟩ := back
    obtain ⟨error, refused⟩ := readText_of_interrupted named interrupted ['>', '>']
    rw [← written, String.ofList_toList] at refused
    rw [ReplyCommand.toScript, refused] at accepted
    cases accepted

/-- An action that is read alone from what is written of it is so from all that its pieces can be
cut into. -/
theorem exists_actionPieces {a : Action} (fits : a.Fits) (framed : ∀ t ∈ a.templates, t.Framed)
    (back : (ReplyCommand.action a).ReadsBack) : ∃ inner, IsReplyCommand (.action a) inner := by
  have sound : (ReplyCommand.action a.rejoined).Sound := Action.sound_rejoined fits framed
  obtain ⟨inner, encloses, source, reads⟩ := exists_replyCommand sound
  have source : sourceOf (enclose inner) = (ReplyCommand.action a).toScript.toList := by
    rw [source, ReplyCommand.toScript, Action.toScript_rejoined, ReplyCommand.toScript]
  obtain ⟨tokens, start, stop, cut, read⟩ := back.read encloses source
  rw [reads tokens start stop cut] at read
  have same : a.rejoined = a := ReplyCommand.action.inj (Except.ok.inj read)
  rw [same] at reads
  exact ⟨inner, encloses, source, reads⟩

/-- A command that can be found in a text is read alone from what is written of it exactly if its
pieces are read so wherever they stand. -/
theorem readsBack_iff_exists_pieces {c : ReplyCommand} (accepted : c.Accepted) :
    c.ReadsBack ↔ ∃ inner, IsReplyCommand c inner := by
  constructor
  · intro back
    cases c with
    | action a => exact exists_actionPieces accepted.1 accepted.2 back
    | set s => exact exists_setPieces accepted.1 accepted.2 back
  · rintro ⟨inner, isCommand⟩
    exact ReplyCommand.readsBack_of_pieces isCommand

/-! Statements -/

/-- Whether a statement is read alone from what is written of it. -/
def StatementReadsBack (segments : List (Segment Input)) : Prop :=
  ∃ tokens, readText (statementScript segments) = .ok tokens ∧
    statementOf tokens = .ok (some segments)

variable {segments : List (Segment Input)}

/-- What is written of a statement is read with the name characters behind each variable in its
name. -/
theorem statementOf_statementScript (fit : StatementFit segments) :
    ∃ tokens, readText (statementScript segments) = .ok tokens ∧
      (Item.ofTokens tokens).foldlM statementStep [] = .ok (segments.map Segment.rejoined) := by
  have merged := Segment.merged_rejoined fit.merged
  have text : ∀ t, .text t ∈ segments.map Segment.rejoined → Atom.Readable t.atoms := by
    intro t member
    obtain ⟨s, inside, same⟩ := List.mem_map.mp member
    cases s with
    | command i => cases same
    | text u =>
      cases same
      exact Template.readable_rejoined fun name here =>
        fit.fit _ (mem_atoms_of_text inside _ here)
  have input : ∀ i, .command i ∈ segments.map Segment.rejoined → i.Sound := by
    intro i member
    obtain ⟨s, inside, same⟩ := List.mem_map.mp member
    cases s with
    | text t => cases same
    | command j =>
      cases same
      obtain ⟨fits, framed⟩ : FitAtom (.inr j) := fit.fit _ (mem_atoms_of_command inside)
      exact Input.sound_rejoined fits framed
  obtain ⟨ps, writes, _, runs⟩ := exists_statement merged text input
  obtain ⟨after, run, mergedAfter, atoms⟩ := runs [] trivial
  obtain ⟨tokens, accepted, cut⟩ := readText_of_writes (writes false)
  rw [String.ofList_toList, Segment.statementScript_rejoined] at accepted
  have same : after = segments.map Segment.rejoined :=
    Segment.eq_of_atoms mergedAfter merged atoms
  rw [same] at run
  exact ⟨tokens, accepted, Reader.fold_of_runs run cut⟩

theorem partWritable_of_rejoined (same : segments.map Segment.rejoined = segments) :
    ∀ s ∈ segments, PartWritable s := by
  intro s member
  have each := List.map_inj_left.mp (same.trans (List.map_id segments).symm) s member
  cases s with
  | text t => exact Template.rejoined_eq_iff.mp (Segment.text.inj each)
  | command i => exact Input.separated_of_rejoined (Segment.command.inj each)

/-- A statement that can be found in a text is read alone from what is written of it exactly if
each part of it can be written. -/
theorem readsBack_iff_sound (fit : StatementFit segments) (trimmed : Segment.trim segments = segments)
    (filled : segments ≠ []) : StatementReadsBack segments ↔ StatementSound segments := by
  constructor
  · rintro ⟨tokens, accepted, read⟩
    obtain ⟨_, again, fold⟩ := statementOf_statementScript fit
    rw [accepted] at again
    cases again
    have whole : Segment.trim (segments.map Segment.rejoined) = segments := by
      rw [statementOf, fold, ok_bind] at read
      dsimp only at read
      split at read
      · cases read
      · exact Option.some.inj (Except.ok.inj read)
    have same := Segment.rejoined_of_trim fit.merged whole
    exact sound_of_statementFit fit trimmed filled (partWritable_of_rejoined same)
  · intro sound
    obtain ⟨ps, writes, _, read⟩ := exists_statementPieces sound
    obtain ⟨tokens, accepted, cut⟩ := readText_of_writes (writes false)
    rw [String.ofList_toList] at accepted
    exact ⟨tokens, accepted, read tokens cut⟩

end Body

/-! Replies -/

namespace Token

variable {t : Token}

theorem isBlank_of_mark (mark : t.isText = false) : t.isBlank = false := by
  obtain ⟨content, source, position⟩ := t
  cases content with
  | text | var => cases mark
  | _ => rfl

theorem mapText_of_mark (mark : t.isText = false) (f : String → String) : t.mapText f = t := by
  obtain ⟨content, source, position⟩ := t
  cases content with
  | text | var => cases mark
  | _ => rfl

/-- A token that is no text is kept where blanks are trimmed. -/
theorem trim_of_mark (mark : t.isText = false) (rest : List Token) :
    ∃ more, trim (t :: rest) = t :: more := by
  have unblank : ¬t.isBlank := by simp [isBlank_of_mark mark]
  have start : skipBlank (t :: rest) = t :: rest := List.dropWhile_cons_of_neg unblank
  -- the mark is the last of the tokens turned around
  have kept : ∃ front, (rest.reverse ++ [t]).dropWhile isBlank = front ++ [t] := by
    rw [List.dropWhile_append]
    split
    · exact ⟨[], List.dropWhile_cons_of_neg unblank⟩
    · exact ⟨_, rfl⟩
  obtain ⟨front, kept⟩ := kept
  have ends : ∃ behind, mapFirst (mapText stripEnd) (front ++ [t]) = behind ++ [t] := by
    cases front with
    | nil => exact ⟨[], congrArg ([·]) (mapText_of_mark mark stripEnd)⟩
    | cons u others => exact ⟨mapText stripEnd u :: others, rfl⟩
  obtain ⟨behind, ends⟩ := ends
  have started : mapFirst (mapText stripStart) (front ++ [t]).reverse = t :: front.reverse := by
    rw [List.reverse_concat, mapFirst, mapText_of_mark mark]
  refine ⟨behind.reverse, ?_⟩
  rw [trim, start, List.reverse_cons, kept, started, List.reverse_cons, List.reverse_reverse, ends,
    List.reverse_concat]

end Token

namespace Body

/-- A command stands in no pointer. -/
theorem pointerOf_of_mark {dialogue : String} {t : Token} {rest : List Token} {stop : Position}
    (mark : t.isText = false) : ∃ error, pointerOf dialogue ⟨t :: rest, stop⟩ = .error error := by
  obtain ⟨more, trimmed⟩ := Token.trim_of_mark mark rest
  obtain ⟨content, source, position⟩ := t
  refine ⟨(Cause.pointer .notPlain).placedAt position, ?_⟩
  rw [pointerOf, trimmed]
  cases content with
  | text | var => cases mark
  | _ => rfl

end Body

namespace Reply

/-- Whether what is written of a reply is read as a reply with the same parts, and as nothing else
around it. -/
def ReadsBack (dialogue : String) (r : Reply) : Prop :=
  ∃ tokens e, readText r.toScript = .ok tokens ∧ Item.ofTokens tokens = [.reply e] ∧
    ∀ id, ∃ use, Body.replyOf dialogue id e = .ok ({ r with id := id }, use)

/-- Whether what is written of a reply is read as a reply that is refused, whatever its number. -/
def Refused (dialogue : String) (r : Reply) : Prop :=
  ∃ tokens e, readText r.toScript = .ok tokens ∧ Item.ofTokens tokens = [.reply e] ∧
    ∀ id, ∃ error, Body.replyOf dialogue id e = .error error

variable {dialogue : String} {r : Reply}

theorem Refused.not_readsBack (refused : r.Refused dialogue) : ¬r.ReadsBack dialogue := by
  rintro ⟨tokens, e, accepted, only, read⟩
  obtain ⟨_, _, again, same, errors⟩ := refused
  rw [accepted] at again
  cases again
  rw [only] at same
  cases same
  obtain ⟨use, found⟩ := read 0
  obtain ⟨error, none⟩ := errors 0
  rw [found] at none
  cases none

/-- What is written of a reply is a reply, which is made from its pieces. -/
theorem readText_of_pieces {inner : List Piece} (writes : Writes true (sourceOf inner) inner)
    (plain : ∀ p ∈ inner, p.hasKind .replyEnd = false)
    (source : '[' :: '[' :: (sourceOf inner ++ [']', ']']) = r.toScript.toList) :
    ∃ tokens inside start stop, readText r.toScript = .ok tokens ∧ Cut inner inside ∧
      Item.ofTokens tokens = [.reply ⟨start, inside, some stop⟩] := by
  obtain ⟨tokens, accepted, cut⟩ := readText_of_writes (Body.writes_reply writes)
  rw [source, String.ofList_toList] at accepted
  obtain ⟨start, inside, stop, here, only⟩ := Item.ofTokens_replyPieces plain cut
  exact ⟨tokens, inside, start, stop, accepted, here, only⟩

theorem readsBack_of_spelled (spelled : r.Spelled dialogue)
    (alone : r.statement = none → r.commands = []) : r.ReadsBack dialogue := by
  obtain ⟨inner, writes, source, plain, read⟩ := Body.exists_reply spelled alone
  obtain ⟨tokens, inside, start, stop, accepted, cut, only⟩ :=
    readText_of_pieces writes plain source
  exact ⟨tokens, _, accepted, only, read inside start stop cut⟩

/-- Commands of a reply without a statement take the place of its pointer, which is refused. -/
theorem refused_of_silent (spelled : r.Spelled dialogue) (silent : r.statement = none)
    (filled : r.commands ≠ []) : r.Refused dialogue := by
  obtain ⟨c, others, commands⟩ := List.exists_cons_of_ne_nil filled
  have each : ∀ d ∈ c :: others, ∃ inner, Body.IsReplyCommand d inner := by
    rw [← commands]
    exact spelled.commands
  obtain ⟨inside, encloses, source, _⟩ := each c List.mem_cons_self
  obtain ⟨orders, written, innerOrders, _⟩ := Body.exists_commandPieces
    fun d member => each d (List.mem_cons_of_mem c member)
  have whole := Body.writes_bar (Body.writes_pointer spelled.text)
    (writes_enclose encloses (written true))
  have innerPointer := Body.inner_plain r.pointer.toScript.toList
  have innerBehind : ∀ p ∈ enclose inside ++ orders, p.Inner := by
    intro p member
    rcases List.mem_append.mp member with front | behind
    · exact encloses.inner_enclose p front
    · exact innerOrders p behind
  obtain ⟨tokens, found, start, stop, accepted, cut, only⟩ :=
    @readText_of_pieces r _ ⟨rfl, whole.sound, whole.legible⟩
      (Body.inner_of_bar innerPointer innerBehind) (by
        rw [whole.source, source]
        simp [toScript, silent, commands])
  -- of the two sections the second is taken for the pointer, and it starts with a marker
  obtain ⟨before, position, behind, rfl, first, second⟩ := cut_append_mark cut
  have orderly := Body.others_of_cut innerBehind second
  obtain ⟨place, more, rfl, _⟩ := cut_mark second
  obtain ⟨error, refused⟩ := @Body.pointerOf_of_mark dialogue
    ⟨.commandStart, String.ofList ['<', '<'], place⟩ more stop rfl
  refine ⟨tokens, _, accepted, only, fun id => ?_⟩
  rw [Body.replyOf, Body.sections_append (Body.others_of_cut innerPointer first) rfl,
    Body.sections_last rfl orderly]
  simp only [Except.map, List.nil_append, ok_bind, pure_eq_ok, refused]
  cases Body.statementOf before with
  | error e => exact ⟨e, rfl⟩
  | ok said => exact ⟨error, rfl⟩

theorem spelled_of_readsBack (accepted : r.Accepted dialogue)
    (statement : ∀ segments ∈ r.statement, Body.StatementReadsBack segments)
    (commands : ∀ c ∈ r.commands, c.ReadsBack) : r.Spelled dialogue := by
  obtain ⟨text, pointer⟩ := accepted.pointer
  obtain ⟨same, word⟩ := Pointer.toScript_of_ofText pointer
  refine ⟨fun segments given => ?_, same ▸ word, same ▸ pointer, fun c member => ?_⟩
  · obtain ⟨fit, trimmed, filled⟩ := accepted.statement segments given
    exact (Body.readsBack_iff_sound fit trimmed filled).mp (statement segments given)
  · exact (Body.readsBack_iff_exists_pieces (accepted.commands c member)).mp (commands c member)

/-- The parts of a reply are each read from what is written of them if they can be written. -/
theorem readsBack_of_writable (accepted : r.Accepted dialogue)
    (writable : ∀ segments ∈ r.statement, ∀ s ∈ segments, Body.PartWritable s)
    (orders : ∀ c ∈ r.commands, c.Writable) :
    (∀ segments ∈ r.statement, Body.StatementReadsBack segments) ∧
      ∀ c ∈ r.commands, c.ReadsBack := by
  refine ⟨fun segments given => ?_, fun c member => ?_⟩
  · obtain ⟨fit, trimmed, filled⟩ := accepted.statement segments given
    exact (Body.readsBack_iff_sound fit trimmed filled).mpr
      (Body.sound_of_statementFit fit trimmed filled (writable segments given))
  · have taken := accepted.commands c member
    exact (Body.readsBack_iff_exists_pieces taken).mpr
      (Body.exists_replyCommand (ReplyCommand.sound_of_accepted taken (orders c member)))

/-- A reply that is read from some lines, whose statement and commands are each read from what is
written of them alone, is read from what is written of it exactly if it has a statement or no
commands. -/
theorem readsBack_iff_of_parts {state : Tokenizer} {number id : Nat} {lines : List (List Char)}
    {tokens : List Token} {e : Enclosed} {use : PointerUse}
    (ends : ∀ line ∈ lines, QuotesFirst line) (cut : (readLines state number lines).1 = .ok tokens)
    (member : .reply e ∈ Item.ofTokens tokens) (read : Body.replyOf dialogue id e = .ok (r, use))
    (statement : ∀ segments ∈ r.statement, Body.StatementReadsBack segments)
    (commands : ∀ c ∈ r.commands, c.ReadsBack) :
    r.ReadsBack dialogue ↔ (r.statement = none → r.commands = []) := by
  have fits : ∀ t ∈ e.inner, t.Fit := fun t inside =>
    fit_of_readLines ends cut t (Item.tokens_subset _ member inside)
  have spelled := spelled_of_readsBack (Body.accepted_of_replyOf fits read) statement commands
  constructor
  · intro back silent
    by_contra filled
    exact (refused_of_silent spelled silent filled).not_readsBack back
  · exact readsBack_of_spelled spelled

/-- A reply that is the only item of a line. -/
theorem exists_reply_of_line {line : String} {holds : Reply → Bool}
    (found : (readLines .initial 1 [line.toList]).1.toOption.any (fun tokens =>
      (Item.ofTokens tokens).any fun
        | .reply e => (Body.replyOf "d" 1 e).toOption.any fun given => holds given.1
        | _ => false) = true) :
    ∃ tokens e r use, (readLines .initial 1 [line.toList]).1 = .ok tokens ∧
      .reply e ∈ Item.ofTokens tokens ∧ Body.replyOf "d" 1 e = .ok (r, use) ∧ holds r := by
  obtain ⟨tokens, cut, items⟩ := (Option.any_eq_true _ _).mp found
  obtain ⟨item, member, taken⟩ := List.any_eq_true.mp items
  cases item with
  | reply e =>
    obtain ⟨⟨r, use⟩, read, held⟩ := (Option.any_eq_true _ _).mp taken
    exact ⟨tokens, e, r, use, toOption_eq_some_iff.mp cut, member, toOption_eq_some_iff.mp read,
      held⟩
  | _ => cases taken

theorem spoken_reply_reads_back :
    let line := "[[Hi $name!|Next|<<set $a=1>>]]"
    ∃ tokens e r use, (readLines .initial 1 [line.toList]).1 = .ok tokens ∧
      .reply e ∈ Item.ofTokens tokens ∧ Body.replyOf "d" 1 e = .ok (r, use) ∧
        (∀ segments ∈ r.statement, Body.StatementReadsBack segments) ∧
          (∀ c ∈ r.commands, c.ReadsBack) ∧
            r.toScript = "[[Hi $name!|Next|<<set $a = 1>>]]" ∧ r.ReadsBack "d" := by
  intro line
  have flat : ∀ l ∈ [line.toList], QuotesFirst l := by
    unfold QuotesFirst
    decide +kernel
  obtain ⟨tokens, e, r, use, cut, member, read, held⟩ := @exists_reply_of_line line
    (fun r => decide r.Writable && r.toScript = "[[Hi $name!|Next|<<set $a = 1>>]]")
    (by decide +kernel)
  obtain ⟨writable, script⟩ := Bool.and_eq_true_iff.mp held
  have writable : r.Writable := of_decide_eq_true writable
  have fits : ∀ t ∈ e.inner, t.Fit := fun t inside =>
    fit_of_readLines flat cut t (Item.tokens_subset _ member inside)
  obtain ⟨statement, commands⟩ := readsBack_of_writable (Body.accepted_of_replyOf fits read)
    writable.statement writable.commands
  have back := (readsBack_iff_of_parts flat cut member read statement commands).mpr writable.alone
  exact ⟨tokens, e, r, use, cut, member, read, statement, commands, of_decide_eq_true script, back⟩

/-- Nothing is written of the empty statement in front of the bar, so that the pointer is taken for
a statement and the command for the pointer. -/
theorem silent_reply_not_read_back :
    let line := "[[|Next|<<set $a = 1>>]]"
    ∃ tokens e r use, (readLines .initial 1 [line.toList]).1 = .ok tokens ∧
      .reply e ∈ Item.ofTokens tokens ∧ Body.replyOf "d" 1 e = .ok (r, use) ∧
        r.statement = none ∧ (∀ c ∈ r.commands, c.ReadsBack) ∧
          r.toScript = "[[Next|<<set $a = 1>>]]" ∧ ¬r.ReadsBack "d" := by
  intro line
  have flat : ∀ l ∈ [line.toList], QuotesFirst l := by
    unfold QuotesFirst
    decide +kernel
  obtain ⟨tokens, e, r, use, cut, member, read, held⟩ := @exists_reply_of_line line
    (fun r => decide (∀ c ∈ r.commands, c.Writable) && (r.statement.isNone &&
      (!r.commands.isEmpty && r.toScript = "[[Next|<<set $a = 1>>]]")))
    (by decide +kernel)
  simp only [Bool.and_eq_true, decide_eq_true_eq, Option.isNone_iff_eq_none, Bool.not_eq_true',
    List.isEmpty_eq_false_iff] at held
  obtain ⟨writable, silent, filled, script⟩ := held
  have fits : ∀ t ∈ e.inner, t.Fit := fun t inside =>
    fit_of_readLines flat cut t (Item.tokens_subset _ member inside)
  have accepted := Body.accepted_of_replyOf fits read
  obtain ⟨statement, commands⟩ := readsBack_of_writable accepted
    (by simp [silent]) writable
  have refused := refused_of_silent (spelled_of_readsBack accepted statement commands) silent filled
  exact ⟨tokens, e, r, use, cut, member, read, silent, commands, script, refused.not_readsBack⟩

end Reply

end Parley
