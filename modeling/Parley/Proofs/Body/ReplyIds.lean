import Mathlib.Data.List.Nodup
import Parley.Proofs.Body.Levels
import Parley.Proofs.Body.Shown

/-!
The numbers of replies. The replies of a script are numbered from one on in the order in which they
are opened, so that a number names one reply of the body and at most one of those that are shown.
-/
namespace Parley

namespace Body

/-- Whether some tokens are read as some replies, one after the other with numbers from one on. -/
def ReadInTurn (dialogue : String) (es : List Enclosed) (rs : List Reply) : Prop :=
  rs.length = es.length ∧ ∀ k e, es[k]? = some e →
    ∃ r use, rs[k]? = some r ∧ replyOf dialogue (k + 1) e = .ok (r, use)

variable {dialogue : String} {es : List Enclosed} {rs : List Reply}

theorem readInTurn_nil : ReadInTurn dialogue [] [] := ⟨rfl, by simp⟩

theorem ReadInTurn.concat (turn : ReadInTurn dialogue es rs) {e : Enclosed} {r : Reply}
    {use : PointerUse} (read : replyOf dialogue (es.length + 1) e = .ok (r, use)) :
    ReadInTurn dialogue (es ++ [e]) (rs ++ [r]) := by
  obtain ⟨length, each⟩ := turn
  refine ⟨by simp [length], fun k other found => ?_⟩
  by_cases earlier : k < es.length
  · rw [List.getElem?_append_left earlier] at found
    rw [List.getElem?_append_left (by omega)]
    exact each k other found
  · rw [List.getElem?_append_right (by omega), List.getElem?_singleton] at found
    split at found
    · rename_i last
      obtain rfl : k = es.length := by omega
      cases found
      exact ⟨r, use, by simp [← length], read⟩
    · cases found

theorem ReadInTurn.ids (turn : ReadInTurn dialogue es rs) :
    rs.map (·.id) = List.range' 1 es.length := by
  obtain ⟨length, each⟩ := turn
  refine List.ext_getElem (by simp [length]) fun k inside _ => ?_
  rw [List.length_map] at inside
  obtain ⟨r, use, found, read⟩ := each k es[k] (List.getElem?_eq_getElem (by omega))
  obtain ⟨_, _, _, _, _, _, _, _, _, id⟩ := sections_of_replyOf read
  obtain ⟨_, rfl⟩ := List.getElem?_eq_some_iff.mp found
  rw [List.getElem_map, id, List.getElem_range']
  omega

/-- Whether the replies in the bodies that are being read are those that have been opened, each
numbered in its turn. -/
def Tallied (dialogue : String) (es : List Enclosed) (levels : List Body) (next : Nat) : Prop :=
  next = es.length + 1 ∧ ∃ rs, ReadInTurn dialogue es rs ∧ (levels.flatMap offers).Perm rs

theorem tallied_shifts {levels levels' : List Body} {next next' : Nat} {opened : Option Enclosed}
    (tallied : Tallied dialogue es levels next)
    (shifts : Shifts dialogue next levels opened levels' next') :
    Tallied dialogue (es ++ opened.toList) levels' next' := by
  obtain ⟨rfl, rs, turn, all⟩ := tallied
  cases shifts with
  | stays alike =>
    rw [List.flatMap_append, List.flatMap_singleton, ← alike.offers] at all
    refine ⟨by simp, rs, by simpa using turn, ?_⟩
    rwa [List.flatMap_append, List.flatMap_singleton]
  | opens alike =>
    rw [List.flatMap_append, List.flatMap_singleton, ← alike.offers] at all
    refine ⟨by simp, rs, by simpa using turn, ?_⟩
    simpa [offers_empty] using all
  | @closes front done outer whole b c alike blocks replies =>
    refine ⟨by simp, rs, by simpa using turn, .trans ?_ all⟩
    have before : (outer :: (done ++ [b])).flatMap offers =
        outer.blocks.flatMap offers ++ (outer.replies ++ (done ++ [c]).flatMap offers) := by
      rw [List.flatMap_cons, offers_eq outer, List.flatMap_append, List.flatMap_append,
        List.flatMap_singleton, List.flatMap_singleton, alike.offers, List.append_assoc]
    rw [List.flatMap_append, List.flatMap_append, before, List.flatMap_singleton, offers_eq whole,
      blocks, replies, List.flatMap_append, List.append_assoc]
    exact (List.perm_append_comm.append_left _).append_left _
  | @reply front b e r use read =>
    refine ⟨by simp, rs ++ [r], turn.concat read, ?_⟩
    rw [List.flatMap_append, List.flatMap_singleton] at all
    rw [List.flatMap_append, List.flatMap_singleton, offers_addReply, ← List.append_assoc]
    exact all.append_right [r]

/-- The replies of a body that is read are those that are opened, numbered in their turn. -/
theorem readInTurn_of_ofTokens {allowed : List String} {state : Tokenizer} {tokens : List Token}
    {b : Body} {uses : List PointerUse} (produced : Tokenizer.Produced state tokens)
    (read : ofTokens dialogue allowed tokens = .ok (b, uses)) :
    ∃ rs, ReadInTurn dialogue (Token.openings tokens) rs ∧ b.nested.Perm rs := by
  have start : Tallied dialogue [] [.empty] 1 := ⟨rfl, [], readInTurn_nil, by simp [offers_empty]⟩
  obtain ⟨next, _, rs, turn, all⟩ := holds_of_ofTokens _ start tallied_shifts read
  rw [Item.openings_ofTokens (Tokenizer.carries_of_produced produced)] at turn
  rw [List.flatMap_singleton] at all
  exact ⟨rs, turn, b.nested_perm_offers.trans all⟩

theorem ids_of_readInTurn {b : Body} (turn : ReadInTurn dialogue es rs) (all : b.nested.Perm rs) :
    (b.nested.map (·.id)).Perm (List.range' 1 b.nested.length) := by
  rw [all.length_eq, turn.1, ← turn.ids]
  exact all.map _

theorem id_bounds {b : Body} (ids : (b.nested.map (·.id)).Perm (List.range' 1 b.nested.length)) :
    ∀ r ∈ b.nested, 1 ≤ r.id ∧ r.id ≤ b.nested.length := by
  intro r member
  have inside := List.mem_range'_1.mp (ids.mem_iff.mp (List.mem_map_of_mem member))
  omega

/-! Looking replies up -/

theorem findReply?_eq_some_iff {b : Body} (distinct : (b.nested.map (·.id)).Nodup) {id : Int}
    {r : Reply} : b.findReply? id = some r ↔ r ∈ b.nested ∧ (r.id : Int) = id := by
  constructor
  · intro found
    exact ⟨List.mem_of_find?_eq_some found, by simpa using List.find?_some found⟩
  · rintro ⟨member, rfl⟩
    obtain ⟨other, found⟩ : ∃ other, b.findReply? r.id = some other :=
      Option.isSome_iff_exists.mp (List.find?_isSome.mpr ⟨r, member, by simp⟩)
    have same : other.id = r.id := Int.ofNat_inj.mp (by simpa using List.find?_some found)
    rw [found, List.inj_on_of_nodup_map distinct (List.mem_of_find?_eq_some found) member same]

theorem findReply?_eq_none_iff {b : Body} {id : Int} :
    b.findReply? id = none ↔ ∀ r ∈ b.nested, (r.id : Int) ≠ id := by
  rw [findReply?, List.find?_eq_none]
  simp

theorem nested_of_blocks {b : Body} (none : b.blocks = []) : b.nested = b.replies := by
  rw [nested_eq, none, List.flatMap_nil, List.append_nil]

/-- Of the replies that are shown no two have the same number, and each is one of the body, with its
pointer. -/
theorem shown_known {σ : Type} {scope : Scope σ} {b : Body} {trimmed : Bool} {vars : σ}
    {random : RandomSource} {stage : Stage σ} (distinct : (b.nested.map (·.id)).Nodup)
    (ran : b.runFresh scope trimmed vars random = (.ok (), stage)) :
    (stage.output.replies.map (·.id)).Nodup ∧
      ∀ r ∈ stage.output.replies, ∃ d ∈ b.nested, d.id = r.id ∧ d.pointer = r.pointer := by
  obtain ⟨_, shown⟩ := shown_of_runFresh ran
  constructor
  · exact (shown_ids ran).nodup ((b.nested_perm_offers.map _).nodup_iff.mp distinct)
  · intro r member
    obtain ⟨d, offered, same⟩ := List.mem_map.mp (shown.subset (List.mem_map_of_mem member))
    obtain ⟨id, pointer⟩ := Prod.mk.inj same
    exact ⟨d, b.nested_perm_offers.mem_iff.mpr offered, id, pointer⟩

/-- The numbers of replies name them. In a body that is read from the tokens of one tokenizer they
run from one to the number of replies, each given once, the reply that is opened as the k-th bearing
k and no other number leading to a reply. Whenever the body is run, the replies that are shown have
different numbers among these and the pointers of the replies they stand for, and a number leads to
the reply shown with it and to none if there is none. -/
theorem replies_named_by_numbers {allowed : List String} {state : Tokenizer} {tokens : List Token}
    {b : Body} {uses : List PointerUse} (produced : Tokenizer.Produced state tokens)
    (read : ofTokens dialogue allowed tokens = .ok (b, uses)) :
    let n := b.nested.length
    (b.nested.map (·.id)).Perm (List.range' 1 n) ∧
    (Token.openings tokens).length = n ∧
    (∀ k e, (Token.openings tokens)[k]? = some e → ∃ r use,
      replyOf dialogue (k + 1) e = .ok (r, use) ∧ r.id = k + 1 ∧
        b.findReply? ((k + 1 : Nat) : Int) = some r) ∧
    (∀ id : Int, id < 1 ∨ n < id → b.findReply? id = none) ∧
    ∀ {σ : Type} {scope : Scope σ} {trimmed : Bool} {vars : σ} {random : RandomSource}
      {stage : Stage σ}, b.runFresh scope trimmed vars random = (.ok (), stage) →
      (stage.output.replies.map (·.id)).Nodup ∧
      (∀ r ∈ stage.output.replies, 1 ≤ r.id ∧ r.id ≤ n ∧
        ∃ d, b.findReply? r.id = some d ∧ r.pointer = d.pointer) ∧
      ∀ id r, stage.output.findReply? id = some r ↔
        r ∈ stage.output.replies ∧ (r.id : Int) = id := by
  obtain ⟨rs, turn, all⟩ := readInTurn_of_ofTokens produced read
  have length : (Token.openings tokens).length = b.nested.length :=
    turn.1.symm.trans all.length_eq.symm
  have ids := ids_of_readInTurn turn all
  have distinct : (b.nested.map (·.id)).Nodup := ids.nodup_iff.mpr List.nodup_range'
  have bounds := id_bounds ids
  refine ⟨ids, length, ?_, ?_, ?_⟩
  · intro k e opened
    obtain ⟨r, use, found, reply⟩ := turn.2 k e opened
    obtain ⟨_, _, _, _, _, _, _, _, _, id⟩ := sections_of_replyOf reply
    have member : r ∈ b.nested := all.mem_iff.mpr (List.mem_of_getElem? found)
    exact ⟨r, use, reply, id, (findReply?_eq_some_iff distinct).mpr ⟨member, by rw [id]⟩⟩
  · intro id outside
    refine findReply?_eq_none_iff.mpr fun r member => ?_
    have inside := bounds r member
    omega
  · intro σ scope trimmed vars random stage ran
    obtain ⟨apart, known⟩ := shown_known distinct ran
    have own : stage.output.nested = stage.output.replies :=
      nested_of_blocks (shown_of_runFresh ran).1
    refine ⟨apart, ?_, ?_⟩
    · intro r member
      obtain ⟨d, inside, id, pointer⟩ := known r member
      have range := bounds d inside
      rw [id] at range
      exact ⟨range.1, range.2, d, (findReply?_eq_some_iff distinct).mpr ⟨inside, by rw [id]⟩,
        pointer.symm⟩
    · intro id r
      rw [← own] at apart ⊢
      exact findReply?_eq_some_iff apart

/-- A reply in a block keeps the number that it has been given, also where it is shown in front of
the reply that stands before the block. -/
theorem names_of_reply_in_block :
    ∃ tokens state b uses stage, Tokenizer.Produced state tokens ∧
      Tokenizer.readText "[[A|Start]]\n<<if true>>\n[[B|Next]]\n<<endif>>\n" = .ok tokens ∧
      ofTokens "d" standardCommands tokens = .ok (b, uses) ∧
      b.runFresh Scope.plain true [] (.ofDraws []) = (.ok (), stage) ∧
      b.nested.length = 2 ∧ b.findReply? 3 = none ∧
      stage.output.replies.map (·.id) = [2, 1] ∧
      ∀ r ∈ stage.output.replies, stage.output.findReply? r.id = some r ∧
        ∃ d, b.findReply? r.id = some d ∧ r.pointer = d.pointer := by
  obtain ⟨tokens, b, uses, stage, cut, read, ran, two, ids⟩ := shown_of_block_behind_reply
  obtain ⟨state, produced⟩ := Tokenizer.produced_of_readText cut
  obtain ⟨_, _, _, none, shown⟩ := replies_named_by_numbers produced read
  obtain ⟨_, known, found⟩ := shown ran
  refine ⟨tokens, state, b, uses, stage, produced, cut, read, ran, two, ?_, ids, ?_⟩
  · exact none 3 (.inr (by rw [two]; decide))
  · intro r member
    exact ⟨(found r.id r).mpr ⟨member, rfl⟩, (known r member).2.2⟩

end Body
end Parley
