import Parley.Proofs.Body.Openings
import Parley.Proofs.Body.Reading

/-!
The markers in what a tokenizer makes of its lines. Opening and closing markers take turns, what can
stand inside a command or a reply only stands there, and the tokenizer knows what is left open; a
body is read only from tokens that leave nothing open.
-/
namespace Parley

/-- Whether two kinds take turns, beginning with the first of them. -/
def TakeTurns (first second : TokenKind) : List TokenKind → Prop
  | [] => True
  | kind :: rest => kind = first ∧ TakeTurns second first rest

namespace Token

/-- The tokens of two kinds, in their order. -/
def markers (opening closing : TokenKind) (tokens : List Token) : List TokenKind :=
  (tokens.map kind).filter fun k => k == opening || k == closing

/-- Whether the last marker of two kinds is an opening one. -/
def LeaveOpen (opening closing : TokenKind) (tokens : List Token) : Prop :=
  (markers opening closing tokens).getLast? = some opening

/-- Whether what follows some tokens stands inside a command. -/
def InCommand (front : List Token) : Prop := LeaveOpen .commandStart .commandEnd front

/-- Whether what follows some tokens stands inside a reply. -/
def InReply (front : List Token) : Prop := LeaveOpen .replyStart .replyEnd front

instance (opening closing : TokenKind) (tokens : List Token) :
    Decidable (LeaveOpen opening closing tokens) :=
  inferInstanceAs (Decidable (_ = _))

instance (front : List Token) : Decidable (InCommand front) :=
  inferInstanceAs (Decidable (LeaveOpen _ _ _))

instance (front : List Token) : Decidable (InReply front) :=
  inferInstanceAs (Decidable (LeaveOpen _ _ _))

/-- Whether opening and closing markers take turns and the other tokens stand where they can. -/
structure RespectMarkers (tokens : List Token) : Prop where
  commands : TakeTurns .commandStart .commandEnd (markers .commandStart .commandEnd tokens)
  replies : TakeTurns .replyStart .replyEnd (markers .replyStart .replyEnd tokens)
  outside : ∀ front t rest, tokens = front ++ t :: rest →
    t.kind = .replyStart ∨ t.kind = .replyEnd → ¬ InCommand front
  quoted : ∀ front t rest, tokens = front ++ t :: rest → t.kind = .quoted → InCommand front
  separators : ∀ front t rest, tokens = front ++ t :: rest → t.kind = .separator →
    InReply front ∧ ¬ InCommand front

/-- Whether no text is empty and none stands beside other text. -/
structure TextsApart (tokens : List Token) : Prop where
  filled : ∀ t ∈ tokens, t.content ≠ .text ""
  apart : tokens.IsChain fun t u => t.kind ≠ .text ∨ u.kind ≠ .text

end Token

namespace Tokenizer

/-- Whether a flag tells what the markers of two kinds leave open. -/
structure Tracks (opening closing : TokenKind) (flag : Tokenizer → Bool) : Prop where
  differ : (closing == opening) = false
  opens : ∀ state content, Admits state content → content.kind = opening →
    flag state = false ∧ flag (state.behind content) = true
  closes : ∀ state content, Admits state content → content.kind = closing →
    flag state = true ∧ flag (state.behind content) = false
  keeps : ∀ state content, content.kind ≠ opening → content.kind ≠ closing →
    flag (state.behind content) = flag state

theorem tracks_commands : Tracks .commandStart .commandEnd (·.inCommand) where
  differ := rfl
  opens state content admits kind := by
    cases content <;> cases kind
    exact ⟨admits, rfl⟩
  closes state content admits kind := by
    cases content <;> cases kind
    exact ⟨admits, rfl⟩
  keeps state content notStart notEnd := by
    cases content with
    | commandStart => exact (notStart rfl).elim
    | commandEnd => exact (notEnd rfl).elim
    | _ => rfl

theorem tracks_replies : Tracks .replyStart .replyEnd (·.inReply) where
  differ := rfl
  opens state content admits kind := by
    cases content <;> cases kind
    exact ⟨admits.2, rfl⟩
  closes state content admits kind := by
    cases content <;> cases kind
    exact ⟨admits.2, rfl⟩
  keeps state content notStart notEnd := by
    cases content with
    | replyStart => exact (notStart rfl).elim
    | replyEnd => exact (notEnd rfl).elim
    | _ => rfl

variable {state final : Tokenizer} {opening closing : TokenKind} {flag : Tokenizer → Bool}

/-- Markers take turns, from the one on that can stand where a flag tells whether one is open, and
the flag at the end tells whether the last of them is an opening one. -/
theorem turns_of_carries (tracks : Tracks opening closing flag) {tokens : List Token}
    (carries : state.Carries (tokens.map (·.content)) final) :
    (if flag state then TakeTurns closing opening (Token.markers opening closing tokens)
      else TakeTurns opening closing (Token.markers opening closing tokens)) ∧
    flag final =
      ((Token.markers opening closing tokens).getLast?.map (· == opening)).getD (flag state) := by
  induction tokens generalizing state with
  | nil =>
    cases carries
    constructor
    · split <;> trivial
    · rfl
  | cons t rest ih =>
    obtain ⟨admits, later⟩ := carries
    obtain ⟨turns, last⟩ := ih later
    have ending (k : TokenKind) (ks : List TokenKind) :
        ((k :: ks).getLast?.map (· == opening)) =
          some ((ks.getLast?.map (· == opening)).getD (k == opening)) := by
      cases ks with
      | nil => rfl
      | cons l more =>
        rw [List.getLast?_cons_cons]
        cases found : (l :: more).getLast? with
        | none => simp at found
        | some m => rfl
    by_cases first : t.content.kind = opening
    · obtain ⟨before, after⟩ := tracks.opens state t.content admits first
      have cut : Token.markers opening closing (t :: rest) =
          opening :: Token.markers opening closing rest := by
        simp [Token.markers, Token.kind, first]
      rw [after] at turns last
      rw [cut, before, ending, last]
      exact ⟨⟨rfl, turns⟩, by simp⟩
    · by_cases second : t.content.kind = closing
      · obtain ⟨before, after⟩ := tracks.closes state t.content admits second
        have cut : Token.markers opening closing (t :: rest) =
            closing :: Token.markers opening closing rest := by
          simp [Token.markers, Token.kind, second]
        rw [after] at turns last
        rw [cut, before, ending, last, tracks.differ]
        exact ⟨⟨rfl, turns⟩, by simp⟩
      · have same := tracks.keeps state t.content first second
        have cut : Token.markers opening closing (t :: rest) =
            Token.markers opening closing rest := by
          simp [Token.markers, Token.kind, first, second]
        rw [same] at turns last
        rw [cut]
        exact ⟨turns, last⟩

/-- From where nothing is open, a flag tells whether some tokens leave something open. -/
theorem flag_iff_leaveOpen (tracks : Tracks opening closing flag) {tokens : List Token}
    (shut : flag state = false) (carries : state.Carries (tokens.map (·.content)) final) :
    flag final ↔ Token.LeaveOpen opening closing tokens := by
  rw [(turns_of_carries tracks carries).2, shut, Token.LeaveOpen]
  cases (Token.markers opening closing tokens).getLast? <;> simp

/-- What holds of a token that can stand behind some tokens. -/
theorem admits_behind {tokens front rest : List Token} {t : Token}
    (carries : Tokenizer.initial.Carries (tokens.map (·.content)) final)
    (whole : tokens = front ++ t :: rest) :
    ∃ mid : Tokenizer, mid.Admits t.content ∧ (mid.inCommand ↔ Token.InCommand front) ∧
      (mid.inReply ↔ Token.InReply front) := by
  rw [whole, List.map_append] at carries
  obtain ⟨mid, before, admits, _⟩ := carries_append.mp carries
  exact ⟨mid, admits, flag_iff_leaveOpen tracks_commands rfl before,
    flag_iff_leaveOpen tracks_replies rfl before⟩

theorem respectMarkers_of_carries {tokens : List Token}
    (carries : Tokenizer.initial.Carries (tokens.map (·.content)) final) :
    Token.RespectMarkers tokens where
  commands := (turns_of_carries tracks_commands carries).1
  replies := (turns_of_carries tracks_replies carries).1
  outside := by
    intro front t rest whole marker inside
    obtain ⟨mid, admits, command, _⟩ := admits_behind carries whole
    obtain ⟨content, source, position⟩ := t
    have shut : mid.inCommand = false := by
      rcases marker with start | stop
      · cases content <;> cases start
        exact admits.1
      · cases content <;> cases stop
        exact admits.1
    rw [command.mpr inside] at shut
    cases shut
  quoted := by
    intro front t rest whole marker
    obtain ⟨mid, admits, command, _⟩ := admits_behind carries whole
    obtain ⟨content, source, position⟩ := t
    cases content <;> cases marker
    exact command.mp admits
  separators := by
    intro front t rest whole marker
    obtain ⟨mid, admits, command, reply⟩ := admits_behind carries whole
    obtain ⟨content, source, position⟩ := t
    cases content <;> cases marker
    obtain ⟨shut, within⟩ : mid.inCommand = false ∧ mid.inReply := admits
    refine ⟨reply.mp within, fun inside => ?_⟩
    rw [command.mpr inside] at shut
    cases shut

/-! Lines -/

/-- Whether no stretch of text stands beside another. -/
def Piece.Apart (ps : List Piece) : Prop :=
  ps.IsChain fun p q => p.isPlain = false ∨ q.isPlain = false

theorem apart_join (ps : List Piece) : Piece.Apart (join ps) := by
  fun_induction join ps with
  | case1 => exact List.isChain_nil
  | case2 content source rest ih => exact List.isChain_cons.mpr ⟨fun _ _ => .inl rfl, ih⟩
  | case3 source value rest more others following same ih =>
    rw [same] at ih
    exact List.isChain_cons.mpr (List.isChain_cons.mp ih)
  | case4 source value rest other ih =>
    refine List.isChain_cons.mpr ⟨fun p head => .inr ?_, ih⟩
    cases p with
    | mark content source => rfl
    | plain more others =>
      obtain ⟨following, same⟩ := List.head?_eq_some_iff.mp head
      exact (other more others following same).elim

theorem kind_of_mark {cs : List Char} {ps : List Piece} (read : Yields state cs ps final)
    {content : Content} {source : List Char} (member : .mark content source ∈ ps) :
    content.kind ≠ .text := by
  induction read with
  | nothing => cases member
  | comment => cases member
  | @piece state after final c rest value found further others stepped _ ih =>
    rcases List.mem_cons.mp member with here | inside
    · cases found with
      | none => cases here
      | some found =>
        obtain ⟨rfl, _⟩ := Piece.mark.inj here
        cases finds_of_step stepped <;> exact TokenKind.noConfusion
    · exact ih inside

/-- The tokens of pieces that are apart have no text beside other text. -/
theorem textsApart_assemble {ps : List Piece} (apart : Piece.Apart ps)
    (marks : ∀ content source, .mark content source ∈ ps → content.kind ≠ .text)
    (position : Position) : Token.TextsApart (assemble position ps) := by
  induction ps generalizing position with
  | nil => exact ⟨by simp [assemble], List.isChain_nil⟩
  | cons p rest ih =>
    obtain ⟨beside, behind⟩ := List.isChain_cons.mp apart
    have later := ih behind fun content source member =>
      marks content source (List.mem_cons_of_mem p member)
    cases p with
    | mark content source =>
      have other := marks content source List.mem_cons_self
      rw [assemble]
      constructor
      · intro t member
        rcases List.mem_cons.mp member with rfl | inside
        · rintro rfl
          exact other rfl
        · exact (later _).filled t inside
      · exact List.isChain_cons.mpr ⟨fun _ _ => .inl other, (later _).apart⟩
    | plain source value =>
      rw [assemble]
      split
      · exact later _
      · rename_i some
        constructor
        · intro t member
          rcases List.mem_cons.mp member with rfl | inside
          · intro same
            have none := String.ofList_eq_empty_iff.mp (Content.text.inj same)
            exact some (List.isEmpty_iff.mpr none)
          · exact (later _).filled t inside
        · refine List.isChain_cons.mpr ⟨fun t head => .inr ?_, (later _).apart⟩
          cases rest with
          | nil => cases head
          | cons q more =>
            cases q with
            | plain source value => simpa [Piece.isPlain] using beside _ rfl
            | mark content source =>
              cases head
              exact marks content source (by simp)

theorem textsApart_readLine {number : Nat} {line : List Char} {tokens : List Token}
    (read : readLine state number line = (.ok tokens, final)) : Token.TextsApart tokens := by
  obtain ⟨ps, whole, rfl⟩ := yields_of_readLine read
  refine textsApart_assemble (apart_join ps) (fun content source member => ?_) _
  exact kind_of_mark whole (mem_of_mem_join member rfl)

end Tokenizer
/-! What is read is closed -/

namespace Enclosed

theorem closed_of_nameAndExpr {e : Enclosed} {found : String × Option Expr}
    (read : e.nameAndExpr = .ok found) : e.stop.isSome := by
  obtain ⟨content, source, _⟩ := bind_eq_ok_iff.mp read
  unfold Enclosed.source at source
  split at source
  · assumption
  · cases source

theorem closed_of_nameOnly {e : Enclosed} {name : String} (read : e.nameOnly name = .ok ()) :
    e.stop.isSome := by
  obtain ⟨found, source, _⟩ := bind_eq_ok_iff.mp read
  exact closed_of_nameAndExpr source

theorem closed_of_expr {e : Enclosed} {name : String} {expr : Expr}
    (read : e.expr name = .ok expr) : e.stop.isSome := by
  obtain ⟨found, source, _⟩ := bind_eq_ok_iff.mp read
  exact closed_of_nameAndExpr source

theorem closed_of_condition {e : Enclosed} {name : String} {expr : Expr}
    (read : e.condition name = .ok expr) : e.stop.isSome := by
  obtain ⟨found, source, _⟩ := bind_eq_ok_iff.mp read
  exact closed_of_expr source

theorem closed_of_assignment {e : Enclosed} {a : Assignment} (read : e.assignment = .ok a) :
    e.stop.isSome := by
  obtain ⟨found, source, _⟩ := bind_eq_ok_iff.mp read
  exact closed_of_expr source

theorem closed_of_collect {e : Enclosed} {before found : List (String × Attribute)}
    {tokens : List Token} (read : Attributes.collect e before tokens = .ok found) :
    e.stop.isSome := by
  replace read := Attributes.collects_of_collect read
  induction read with
  | stop closed => exact closed
  | entry _ _ _ _ _ ih => exact ih

theorem closed_of_ofCommand {e : Enclosed} {found : Attributes}
    (read : Attributes.ofCommand e = .ok found) : e.stop.isSome := by
  obtain ⟨entries, collected, _⟩ := bind_eq_ok_iff.mp read
  exact closed_of_collect collected

theorem closed_of_sections {e : Enclosed} {left : Nat} {before tokens : List Token}
    {found : List Body.Section} (read : Body.sections e left before tokens = .ok found) :
    e.stop.isSome := by
  fun_induction Body.sections e left before tokens generalizing found with
  | case1 left before stop closed => rw [closed]; rfl
  | case2 left before isOpen => cases read
  | case3 before t rest separator => cases read
  | case4 before t rest separator left ih =>
    obtain ⟨others, cut, _⟩ := bind_eq_ok_iff.mp read
    exact ih cut
  | case5 left before t rest other ih => exact ih read

end Enclosed

/-- Whether the marker that closes an item is there. -/
def Item.IsClosed : Item → Prop
  | .command e | .reply e => e.stop.isSome
  | .text _ | .stray _ => True

theorem Body.Reading.closed_of_takes {dialogue : String} {allowed : List String} {s s' : Reading}
    {item : Item} (takes : Takes dialogue allowed s item s') : item.IsClosed := by
  have closed {tokens e : Enclosed} {name : String} {t : Token}
      (named : tokens.named = .ok (name, t, e)) (stop : e.stop.isSome) :
      (Item.command tokens).IsClosed := by
    rw [(Enclosed.named_eq_ok named).1] at stop
    exact stop
  cases takes with
  | text => trivial
  | set named _ _ read => exact closed named (Enclosed.closed_of_assignment read)
  | action named _ _ attributes => exact closed named (Enclosed.closed_of_ofCommand attributes)
  | input named _ _ attributes => exact closed named (Enclosed.closed_of_ofCommand attributes)
  | openChoice named _ read => exact closed named (Enclosed.closed_of_condition read)
  | openRandom named _ attributes => exact closed named (Enclosed.closed_of_ofCommand attributes)
  | nextChoice named _ _ read => exact closed named (Enclosed.closed_of_condition read)
  | otherwise named _ _ read => exact closed named (Enclosed.closed_of_nameOnly read)
  | closeChoice named _ _ read => exact closed named (Enclosed.closed_of_nameOnly read)
  | closeOtherwise named _ _ read => exact closed named (Enclosed.closed_of_nameOnly read)
  | nextRandom named _ _ attributes => exact closed named (Enclosed.closed_of_ofCommand attributes)
  | closeRandom named _ _ attributes => exact closed named (Enclosed.closed_of_ofCommand attributes)
  | reply read =>
    obtain ⟨statement, pointer, commands, more, cut, _⟩ := sections_of_replyOf read
    exact Enclosed.closed_of_sections cut

theorem Body.closed_of_ofTokens {dialogue : String} {allowed : List String} {tokens : List Token}
    {b : Body} {uses : List PointerUse} (read : ofTokens dialogue allowed tokens = .ok (b, uses)) :
    ∀ item ∈ Item.ofTokens tokens, item.IsClosed := by
  obtain ⟨s, run, _⟩ := bind_eq_ok_iff.mp read
  generalize Item.ofTokens tokens = items at run
  generalize Reading.start 1 = before at run
  induction items generalizing before with
  | nil => simp
  | cons item rest ih =>
    obtain ⟨next, taken, later⟩ := foldlM_cons_eq_ok_iff.mp run
    intro other member
    rcases List.mem_cons.mp member with rfl | behind
    · exact Reading.closed_of_takes (Reading.takes_of_step taken)
    · exact ih next later other behind

/-- Tokens whose items are all closed leave nothing open. -/
theorem Tokenizer.shut_of_closed {tokens : List Token} {final : Tokenizer}
    (carries : Tokenizer.initial.Carries (tokens.map (·.content)) final)
    (closed : ∀ item ∈ Item.ofTokens tokens, item.IsClosed) : final = .initial := by
  have stop (kind : TokenKind) (place : Position) (rest : List Token)
      (there : (Enclosed.upTo kind place rest).stop.isSome) :
      rest.dropWhile (·.kind != kind) ≠ [] := by
    intro none
    rw [Enclosed.upTo, none] at there
    cases there
  fun_induction Item.ofTokens tokens generalizing final with
  | case1 => exact carries.symm
  | case2 t rest value content ih =>
    have later := (Token.openings_behind_text (carries.tail content)).2
    exact ih later fun item member => closed item (List.mem_cons_of_mem _ member)
  | case3 t rest name content ih =>
    have later := (Token.openings_behind_text (carries.tail content)).2
    exact ih later fun item member => closed item (List.mem_cons_of_mem _ member)
  | case4 t rest content ih =>
    obtain ⟨_, last, later, isOpen | ⟨_, same⟩⟩ :=
      Token.openings_behind_command (carries.tail content)
    · exact (stop _ _ rest (closed _ List.mem_cons_self) isOpen.1).elim
    · rw [← same]
      exact ih later fun item member => closed item (List.mem_cons_of_mem _ member)
  | case5 t rest content ih =>
    obtain ⟨_, last, later, isOpen | ⟨_, same⟩⟩ :=
      Token.openings_behind_reply rfl (carries.tail content)
    · exact (stop _ _ rest (closed _ List.mem_cons_self) isOpen.1).elim
    · rw [← same]
      exact ih later fun item member => closed item (List.mem_cons_of_mem _ member)
  | case6 t rest notText notVar notCommand notReply ih =>
    exact (Tokenizer.no_stray carries.1 notText notVar notCommand notReply).elim

namespace Tokenizer

/-- Whether one tokenizer reads some numbered lines one after the other without an error, and the
tokens of each. -/
inductive ReadsInTurn : Tokenizer → List (Nat × List Char) → List (List Token) → Tokenizer → Prop
  | nil {state : Tokenizer} : ReadsInTurn state [] [] state
  | cons {state mid final : Tokenizer} {number : Nat} {line : List Char} {tokens : List Token}
      {rest : List (Nat × List Char)} {each : List (List Token)} :
      readLine state number line = (.ok tokens, mid) → ReadsInTurn mid rest each final →
        ReadsInTurn state ((number, line) :: rest) (tokens :: each) final

variable {state final : Tokenizer} {lines : List (Nat × List Char)} {each : List (List Token)}

theorem ReadsInTurn.carries (reads : ReadsInTurn state lines each final) :
    state.Carries (each.flatten.map (·.content)) final := by
  induction reads with
  | nil => rfl
  | cons first _ later =>
    rw [List.flatten_cons, List.map_append]
    exact carries_append.mpr ⟨_, carries_readLine first, later⟩

theorem ReadsInTurn.textsApart (reads : ReadsInTurn state lines each final) :
    ∀ tokens ∈ each, Token.TextsApart tokens := by
  induction reads with
  | nil => simp
  | cons first _ later =>
    intro tokens member
    rcases List.mem_cons.mp member with rfl | behind
    · exact textsApart_readLine first
    · exact later tokens behind

/-- The tokens of lines respect the markers, the tokenizer knows what they leave open, and a body is
read from them only if that is nothing. -/
theorem markers_of_lines (reads : ReadsInTurn .initial lines each final) :
    Token.RespectMarkers each.flatten ∧
      (final.inCommand ↔ Token.InCommand each.flatten) ∧
      (final.inReply ↔ Token.InReply each.flatten) ∧
      (∀ tokens ∈ each, Token.TextsApart tokens) ∧
      ∀ dialogue allowed b uses, Body.ofTokens dialogue allowed each.flatten = .ok (b, uses) →
        final.inCommand = false ∧ final.inReply = false := by
  have carries := reads.carries
  refine ⟨respectMarkers_of_carries carries, flag_iff_leaveOpen tracks_commands rfl carries,
    flag_iff_leaveOpen tracks_replies rfl carries, reads.textsApart, ?_⟩
  intro dialogue allowed b uses read
  have shut := shut_of_closed carries (Body.closed_of_ofTokens read)
  rw [shut]
  exact ⟨rfl, rfl⟩

theorem markers_of_reply_on_two_lines :
    ∃ each final,
      ReadsInTurn .initial [(1, "[[Hi".toList), (2, "|Start]]".toList)] each final ∧
      Token.RespectMarkers each.flatten ∧
      (final.inCommand ↔ Token.InCommand each.flatten) ∧
      (final.inReply ↔ Token.InReply each.flatten) ∧
      (∀ tokens ∈ each, Token.TextsApart tokens) ∧
      ∀ dialogue allowed b uses, Body.ofTokens dialogue allowed each.flatten = .ok (b, uses) →
        final.inCommand = false ∧ final.inReply = false := by
  have first : (readLine .initial 1 "[[Hi".toList).1 =
      .ok [⟨.replyStart, "[[", ⟨1, 1⟩⟩, ⟨.text "Hi", "Hi", ⟨1, 3⟩⟩] := by decide +kernel
  have second : (readLine (readLine .initial 1 "[[Hi".toList).2 2 "|Start]]".toList).1 =
      .ok [⟨.separator, "|", ⟨2, 1⟩⟩, ⟨.text "Start", "Start", ⟨2, 2⟩⟩,
        ⟨.replyEnd, "]]", ⟨2, 7⟩⟩] := by decide +kernel
  have reads := ReadsInTurn.cons (Prod.ext first rfl) (.cons (Prod.ext second rfl) .nil)
  exact ⟨_, _, reads, markers_of_lines reads⟩

end Tokenizer
end Parley
