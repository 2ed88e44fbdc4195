import Parley.Proofs.Body.Law
import Parley.Proofs.Body.Pieces

/-!
Where replies are opened. A tokenizer opens no reply inside another or inside a command and closes
none inside a command, so that each opening marker in the tokens of a script starts an item.
-/
namespace Parley

namespace Tokenizer

/-- Whether a content can stand where some markers are open. -/
def Admits (state : Tokenizer) : Content → Prop
  | .commandStart => state.inCommand = false
  | .commandEnd => state.inCommand
  | .replyStart => state.inCommand = false ∧ state.inReply = false
  | .replyEnd => state.inCommand = false ∧ state.inReply
  | .quoted _ => state.inCommand
  | .separator => state.inCommand = false ∧ state.inReply
  | .text _ | .var _ => True

/-- The markers that are open behind a content. -/
def behind (state : Tokenizer) : Content → Tokenizer
  | .commandStart => { state with inCommand := true }
  | .commandEnd => { state with inCommand := false }
  | .replyStart => { state with inReply := true }
  | .replyEnd => { state with inReply := false }
  | _ => state

/-- Whether some contents can stand one behind the other, and the markers open at their end. -/
def Carries : Tokenizer → List Content → Tokenizer → Prop
  | state, [], final => state = final
  | state, content :: rest, final =>
      state.Admits content ∧ (state.behind content).Carries rest final

/-- Where no marker is open there is text, a variable or an opening marker. -/
theorem no_stray {content : Content} (admits : initial.Admits content)
    (notText : ∀ value, content ≠ .text value) (notVar : ∀ name, content ≠ .var name)
    (notCommand : content ≠ .commandStart) (notReply : content ≠ .replyStart) : False := by
  cases content with
  | text value => exact notText value rfl
  | var name => exact notVar name rfl
  | commandStart => exact notCommand rfl
  | commandEnd => cases admits
  | quoted value => cases admits
  | replyStart => exact notReply rfl
  | replyEnd => cases admits.2
  | separator => cases admits.2

variable {state final : Tokenizer}

theorem carries_append {xs ys : List Content} :
    state.Carries (xs ++ ys) final ↔ ∃ mid, state.Carries xs mid ∧ mid.Carries ys final := by
  induction xs generalizing state with
  | nil => simp [Carries]
  | cons x rest ih => simp [Carries, ih, and_assoc]

theorem Carries.tail {t : Token} {rest : List Token}
    (carries : state.Carries ((t :: rest).map (·.content)) final) {content : Content}
    (same : t.content = content) : (state.behind content).Carries (rest.map (·.content)) final :=
  same ▸ carries.2

/-! Lines -/

theorem admits_of_step {c : Char} {rest : List Char} {content : Option Content} {value : List Char}
    {further : Nat} (stepped : step state c rest = .piece content value further final)
    (text : String) :
    state.Admits (content.getD (.text text)) ∧
      state.behind (content.getD (.text text)) = final := by
  cases finds_of_step stepped with
  | commandStart outside => exact ⟨outside, rfl⟩
  | commandEnd inside => exact ⟨inside, rfl⟩
  | replyStart outside apart => exact ⟨⟨outside, apart⟩, rfl⟩
  | replyEnd outside inside => exact ⟨⟨outside, inside⟩, rfl⟩
  | quoted inside => exact ⟨inside, rfl⟩
  | separator outside inside => exact ⟨⟨outside, inside⟩, rfl⟩
  | text => exact ⟨trivial, rfl⟩
  | var => exact ⟨trivial, rfl⟩

theorem carries_of_yields {cs : List Char} {ps : List Piece} (read : Yields state cs ps final) :
    state.Carries (ps.map Piece.content) final := by
  induction read with
  | nothing => rfl
  | comment => rfl
  | @piece state after final c rest value content further others stepped _ ih =>
    have first := admits_of_step stepped (String.ofList value)
    have same : Piece.content (.make content (c :: rest.take further) value) =
        content.getD (.text (String.ofList value)) := by
      cases content <;> rfl
    rw [List.map_cons, Carries, same, first.2]
    exact ⟨first.1, ih⟩

/-- Stretches of text open and close nothing, so that it does not matter how they are joined. -/
theorem carries_join {ps : List Piece} :
    state.Carries ((join ps).map Piece.content) final ↔
      state.Carries (ps.map Piece.content) final := by
  fun_induction join ps generalizing state with
  | case1 => rfl
  | case2 content source rest ih => simp [Carries, ih]
  | case3 source value rest more others following same ih =>
    rw [List.map_cons, List.map_cons, Carries, Carries, ← ih, same]
    simp [Carries, Piece.content, Admits, behind]
  | case4 source value rest other ih => simp [Carries, ih]

theorem carries_assemble {ps : List Piece} {position : Position} :
    state.Carries ((assemble position ps).map (·.content)) final ↔
      state.Carries (ps.map Piece.content) final := by
  induction ps generalizing state position with
  | nil => rfl
  | cons p rest ih =>
    cases p with
    | mark content source => simp [assemble, Carries, Piece.content, ih]
    | plain source value =>
      rw [assemble]
      split <;> simp [Carries, Piece.content, Admits, behind, ih]

theorem carries_readLine {number : Nat} {line : List Char} {tokens : List Token}
    (read : readLine state number line = (.ok tokens, final)) :
    state.Carries (tokens.map (·.content)) final := by
  obtain ⟨ps, whole, rfl⟩ := yields_of_readLine read
  exact carries_assemble.mpr (carries_join.mpr (carries_of_yields whole))

/-- What a tokenizer can produce from its lines, whatever they are and however they are numbered,
and the markers that it leaves open. -/
inductive Produced : Tokenizer → List Token → Prop
  | nothing : Produced .initial []
  | line {state next : Tokenizer} {tokens found : List Token} {number : Nat} {line : List Char} :
      Produced state tokens → readLine state number line = (.ok found, next) →
        Produced next (tokens ++ found)

theorem carries_of_produced {tokens : List Token} (produced : Produced state tokens) :
    Tokenizer.initial.Carries (tokens.map (·.content)) state := by
  induction produced with
  | nothing => rfl
  | line _ read carries =>
    rw [List.map_append]
    exact carries_append.mpr ⟨_, carries, carries_readLine read⟩

theorem produced_append {number : Nat} {lines : List (List Char)} {before : List Token}
    {each : List (List Token)} (produced : Produced state before)
    (read : (readEach state number lines).1 = each.map .ok) :
    ∃ final, Produced final (before ++ each.flatten) := by
  induction lines generalizing state number before each with
  | nil =>
    obtain rfl := List.map_eq_nil_iff.mp read.symm
    exact ⟨state, by simpa using produced⟩
  | cons line rest ih =>
    rw [readEach] at read
    split at read
    · cases each <;> cases read
    · rename_i found after here
      obtain ⟨first, others, rfl, same, later⟩ := List.map_eq_cons_iff.mp read.symm
      cases same
      obtain ⟨final, all⟩ := ih (produced.line here) later.symm
      exact ⟨final, by simpa using all⟩

theorem produced_of_readText {text : String} {tokens : List Token}
    (read : readText text = .ok tokens) : ∃ final, Produced final tokens := by
  obtain ⟨each, found, rfl⟩ := map_eq_ok_iff.mp read
  exact produced_append .nothing (mapM_id_eq_ok_iff.mp found)

end Tokenizer

/-! Items -/

/-- The tokens of the replies that are opened, in the order of the opening markers. -/
def Token.openings : List Token → List Enclosed
  | [] => []
  | t :: rest =>
      if t.content = .replyStart then .upTo .replyEnd t.position rest :: openings rest
      else openings rest

/-- The tokens of a reply, if an item is one. -/
def Item.opening : Item → Option Enclosed
  | .reply e => some e
  | _ => none

namespace Token

variable {state final : Tokenizer}

/-- No reply is opened before an open command ends, and its end stands outside of replies. -/
theorem openings_behind_command {tokens : List Token}
    (carries : (⟨true, false⟩ : Tokenizer).Carries (tokens.map (·.content)) final) :
    openings (behind .commandEnd tokens) = openings tokens ∧
      ∃ last, Tokenizer.initial.Carries ((behind .commandEnd tokens).map (·.content)) last ∧
        (tokens.dropWhile (·.kind != .commandEnd) = [] ∧ final.inCommand ∨
          tokens.dropWhile (·.kind != .commandEnd) ≠ [] ∧ last = final) := by
  induction tokens with
  | nil => exact ⟨rfl, .initial, rfl, .inl ⟨rfl, by rw [← carries]⟩⟩
  | cons t rest ih =>
    obtain ⟨admits, later⟩ := carries
    obtain ⟨content, source, position⟩ := t
    cases content with
    | commandEnd => exact ⟨rfl, final, later, .inr ⟨List.cons_ne_nil _ _, rfl⟩⟩
    | commandStart => cases admits
    | replyStart => cases admits.1
    | replyEnd => cases admits.1
    | _ => exact ih later

/-- No reply is opened before an open reply ends, and its end stands outside of commands. -/
theorem openings_behind_reply {tokens : List Token} (inReply : state.inReply)
    (carries : state.Carries (tokens.map (·.content)) final) :
    openings (behind .replyEnd tokens) = openings tokens ∧
      ∃ last, Tokenizer.initial.Carries ((behind .replyEnd tokens).map (·.content)) last ∧
        (tokens.dropWhile (·.kind != .replyEnd) = [] ∧ final.inReply ∨
          tokens.dropWhile (·.kind != .replyEnd) ≠ [] ∧ last = final) := by
  induction tokens generalizing state with
  | nil => exact ⟨rfl, .initial, rfl, .inl ⟨rfl, by rwa [← carries]⟩⟩
  | cons t rest ih =>
    obtain ⟨admits, later⟩ := carries
    obtain ⟨content, source, position⟩ := t
    cases content with
    | replyEnd =>
      obtain ⟨inCommand, _⟩ := state
      obtain rfl : inCommand = false := admits.1
      exact ⟨rfl, final, later, .inr ⟨List.cons_ne_nil _ _, rfl⟩⟩
    | replyStart => exact absurd (admits.2.symm.trans inReply) Bool.false_ne_true
    | commandStart =>
      have still : (state.behind .commandStart).inReply := inReply
      exact ih still later
    | commandEnd =>
      have still : (state.behind .commandEnd).inReply := inReply
      exact ih still later
    | _ => exact ih inReply later

theorem openings_behind_text {tokens : List Token}
    (carries : state.Carries (tokens.map (·.content)) final) :
    openings (tokens.dropWhile isText) = openings tokens ∧
      state.Carries ((tokens.dropWhile isText).map (·.content)) final := by
  induction tokens with
  | nil => exact ⟨rfl, carries⟩
  | cons t rest ih =>
    obtain ⟨content, source, position⟩ := t
    cases content with
    | text value => exact ih carries.2
    | var name => exact ih carries.2
    | _ => exact ⟨rfl, carries⟩

end Token

/-- The replies among the items of some tokens are those that are opened by a marker. -/
theorem Item.openings_ofTokens {tokens : List Token} {final : Tokenizer}
    (carries : Tokenizer.initial.Carries (tokens.map (·.content)) final) :
    (ofTokens tokens).filterMap opening = Token.openings tokens := by
  fun_induction ofTokens tokens generalizing final with
  | case1 => rfl
  | case2 t rest value content ih =>
    obtain ⟨same, later⟩ := Token.openings_behind_text (carries.tail content)
    rw [List.filterMap_cons, ih later, same, Token.openings]
    simp [opening, content]
  | case3 t rest name content ih =>
    obtain ⟨same, later⟩ := Token.openings_behind_text (carries.tail content)
    rw [List.filterMap_cons, ih later, same, Token.openings]
    simp [opening, content]
  | case4 t rest content ih =>
    obtain ⟨same, last, later, _⟩ := Token.openings_behind_command (carries.tail content)
    rw [List.filterMap_cons, ih later, same, Token.openings]
    simp [opening, content]
  | case5 t rest content ih =>
    obtain ⟨same, last, later, _⟩ := Token.openings_behind_reply rfl (carries.tail content)
    rw [List.filterMap_cons, ih later, same, Token.openings]
    simp [opening, content]
  | case6 t rest notText notVar notCommand notReply ih =>
    exact (Tokenizer.no_stray carries.1 notText notVar notCommand notReply).elim

end Parley
