import Parley.Proofs.Body.Levels
import Parley.Proofs.Body.Shown

/-!
The order in which replies are shown. A body runs its blocks before it shows replies of its own, so
that a reply in a block overtakes those that stand in front of the block in the same body. Apart
from this the replies stand in the order of the script.
-/
namespace Parley

namespace Body

/-- Whether all replies of a body have smaller numbers than those of another. -/
def Precedes (b c : Body) : Prop := ∀ r ∈ b.offers, ∀ t ∈ c.offers, r.id < t.id

/-- Whether the numbers go up along the blocks of a body and along its own replies, and so at every
depth; how the ones stand to the others is left open. -/
inductive Ordered : Body → Prop
  | of {b : Body} (own : b.replies.Pairwise fun r t => r.id < t.id)
      (blocks : b.blocks.Pairwise Precedes)
      (apart : ∀ r ∈ b.blocks.flatMap offers, ∀ t ∈ b.replies, r.id ≠ t.id)
      (inside : ∀ inner ∈ b.blocks, inner.Ordered) : Ordered b

/-- Whether a body is another one or stands in a block of it at some depth. -/
inductive Within : Body → Body → Prop
  | itself {b : Body} : Within b b
  | block {b inner c : Body} (member : inner ∈ b.blocks) (deeper : inner.Within c) : Within b c

/-- Whether a reply that stands behind another in the script is in a block of the very body that has
the other among its replies. -/
def Overtakes (b : Body) (i j : Nat) : Prop :=
  j < i ∧ ∃ c, b.Within c ∧ (∃ r ∈ c.replies, r.id = j) ∧
    ∃ inner ∈ c.blocks, ∃ r ∈ inner.nested, r.id = i

theorem mem_offers_of_block {b : Body} {r : Reply} (block : r ∈ b.blocks.flatMap offers) :
    r ∈ b.offers := by
  rw [offers_eq]
  exact List.mem_append_left _ block

theorem mem_offers_of_reply {b : Body} {r : Reply} (own : r ∈ b.replies) : r ∈ b.offers := by
  rw [offers_eq]
  exact List.mem_append_right _ own

/-! Reading -/

theorem Ordered.alike {b c : Body} (ordered : b.Ordered) (alike : b.Alike c) : c.Ordered := by
  obtain ⟨own, blocks, apart, inside⟩ := ordered
  rw [← alike.1] at blocks apart inside
  rw [← alike.2] at own apart
  exact .of own blocks apart inside

theorem ordered_empty : empty.Ordered := by
  refine .of ?_ ?_ ?_ ?_
  · exact .nil
  · exact .nil
  · exact fun _ none => nomatch none
  · exact fun _ none => nomatch none

/-- Whether the bodies that are being read are ordered, each in itself and one behind the other, and
the next number is still to be given. -/
structure InOrder (levels : List Body) (next : Nat) : Prop where
  each : ∀ b ∈ levels, b.Ordered
  across : levels.Pairwise Precedes
  below : ∀ b ∈ levels, ∀ r ∈ b.offers, r.id < next

variable {front old new : List Body} {b c : Body} {next next' : Nat}

theorem inOrder_singleton (ordered : b.Ordered) (below : ∀ r ∈ b.offers, r.id < next) :
    InOrder [b] next :=
  ⟨by simpa using ordered, List.pairwise_singleton _ _, by simpa using below⟩

/-- The bodies at the inner end can be replaced by others that are in order and have no replies but
those that were there and new ones. -/
theorem InOrder.replace (inOrder : InOrder (front ++ old) next) (other : InOrder new next')
    (later : next ≤ next')
    (known : ∀ c ∈ new, ∀ r ∈ c.offers, (∃ b ∈ old, r ∈ b.offers) ∨ next ≤ r.id) :
    InOrder (front ++ new) next' := by
  obtain ⟨each, across, below⟩ := inOrder
  obtain ⟨outside, _, between⟩ := List.pairwise_append.mp across
  constructor
  · intro b member
    rcases List.mem_append.mp member with around | inner
    · exact each b (List.mem_append_left _ around)
    · exact other.each b inner
  · refine List.pairwise_append.mpr
      ⟨outside, other.across, fun b around c inner r mine t yours => ?_⟩
    rcases known c inner t yours with ⟨d, before, there⟩ | fresh
    · exact between b around d before r mine t there
    · have := below b (List.mem_append_left _ around) r mine
      omega
  · intro b member r mine
    rcases List.mem_append.mp member with around | inner
    · have := below b (List.mem_append_left _ around) r mine
      omega
    · exact other.below b inner r mine

theorem InOrder.last (inOrder : InOrder (front ++ [b]) next) :
    b.Ordered ∧ ∀ r ∈ b.offers, r.id < next :=
  ⟨inOrder.each b (by simp), inOrder.below b (by simp)⟩

theorem InOrder.stays (inOrder : InOrder (front ++ [b]) next) (alike : b.Alike c) :
    InOrder (front ++ [c]) next := by
  obtain ⟨ordered, below⟩ := inOrder.last
  refine inOrder.replace (inOrder_singleton (ordered.alike alike) ?_) le_rfl ?_
  · rwa [alike.offers]
  · intro d member r mine
    obtain rfl := List.mem_singleton.mp member
    exact .inl ⟨b, List.mem_singleton_self b, alike.offers ▸ mine⟩

theorem InOrder.opens (inOrder : InOrder front next) : InOrder (front ++ [.empty]) next := by
  have start : InOrder (front ++ []) next := by rwa [List.append_nil]
  refine start.replace (inOrder_singleton ordered_empty ?_) le_rfl ?_
  · simp [offers_empty]
  · simp [offers_empty]

section Closing

variable {done : List Body} {outer whole : Body}
  (blocks : whole.blocks = outer.blocks ++ done) (replies : whole.replies = outer.replies)

include blocks replies in
theorem mem_offers_of_closed {r : Reply} (mine : r ∈ whole.offers) :
    ∃ b ∈ outer :: done, r ∈ b.offers := by
  rw [offers_eq, blocks, replies, List.flatMap_append] at mine
  simp only [List.mem_append, List.mem_flatMap] at mine
  rcases mine with (first | ⟨b, member, mine⟩) | last
  · exact ⟨outer, List.mem_cons_self, mem_offers_of_block (List.mem_flatMap.mpr first)⟩
  · exact ⟨b, List.mem_cons_of_mem outer member, mine⟩
  · exact ⟨outer, List.mem_cons_self, mem_offers_of_reply last⟩

include blocks replies in
/-- Blocks whose numbers are all above those of a body can be added to its own. -/
theorem Ordered.closed (ordered : outer.Ordered) (behind : ∀ c ∈ done, outer.Precedes c)
    (clauses : done.Pairwise Precedes) (each : ∀ c ∈ done, c.Ordered) : whole.Ordered := by
  obtain ⟨own, earlier, apart, inside⟩ := ordered
  refine .of (replies ▸ own) ?_ ?_ ?_
  · rw [blocks]
    refine List.pairwise_append.mpr ⟨earlier, clauses, fun b first c member r mine t yours => ?_⟩
    exact behind c member r (mem_offers_of_block (List.mem_flatMap.mpr ⟨b, first, mine⟩)) t yours
  · intro r mine t yours
    rw [replies] at yours
    rw [blocks, List.flatMap_append] at mine
    rcases List.mem_append.mp mine with first | clause
    · exact apart r first t yours
    · obtain ⟨b, member, there⟩ := List.mem_flatMap.mp clause
      exact (behind b member t (mem_offers_of_reply yours) r there).ne'
  · intro b member
    rw [blocks] at member
    exact (List.mem_append.mp member).elim (inside b) (each b)

include blocks replies in
theorem InOrder.closes (inOrder : InOrder (front ++ outer :: done) next) :
    InOrder (front ++ [whole]) next := by
  obtain ⟨_, inner, _⟩ := List.pairwise_append.mp inOrder.across
  obtain ⟨behind, clauses⟩ := List.pairwise_cons.mp inner
  have ordered : whole.Ordered :=
    (inOrder.each outer (by simp)).closed blocks replies behind clauses
      fun c member => inOrder.each c (by simp [member])
  refine inOrder.replace (inOrder_singleton ordered fun r mine => ?_) le_rfl ?_
  · obtain ⟨b, member, there⟩ := mem_offers_of_closed blocks replies mine
    exact inOrder.below b (List.mem_append_right _ member) r there
  · intro d member r mine
    obtain rfl := List.mem_singleton.mp member
    exact .inl (mem_offers_of_closed blocks replies mine)

end Closing

theorem InOrder.addReply (inOrder : InOrder (front ++ [b]) next) {r : Reply} (id : r.id = next) :
    InOrder (front ++ [b.addReply r]) (next + 1) := by
  obtain ⟨⟨own, blocks, apart, inside⟩, below⟩ := inOrder.last
  have ordered : (b.addReply r).Ordered := by
    refine .of ?_ blocks ?_ inside
    · refine List.pairwise_append.mpr ⟨own, List.pairwise_singleton _ _, fun t mine u new => ?_⟩
      rw [List.mem_singleton.mp new, id]
      exact below t (mem_offers_of_reply mine)
    · intro t block u mine
      rcases List.mem_append.mp mine with earlier | new
      · exact apart t block u earlier
      · rw [List.mem_singleton.mp new, id]
        exact (below t (mem_offers_of_block block)).ne
  have mine : ∀ t ∈ (b.addReply r).offers, t ∈ b.offers ∨ t = r := by
    intro t member
    rw [offers_addReply] at member
    exact (List.mem_append.mp member).imp_right List.mem_singleton.mp
  refine inOrder.replace (inOrder_singleton ordered fun t member => ?_) (Nat.le_succ next) ?_
  · rcases mine t member with earlier | rfl
    · exact Nat.lt_succ_of_lt (below t earlier)
    · rw [id]
      exact Nat.lt_succ_self next
  · intro d member t there
    obtain rfl := List.mem_singleton.mp member
    rcases mine t there with earlier | rfl
    · exact .inl ⟨b, List.mem_singleton_self b, earlier⟩
    · exact .inr id.ge

theorem inOrder_shifts {dialogue : String} {levels levels' : List Body} {opened : Option Enclosed}
    (inOrder : InOrder levels next) (shifts : Shifts dialogue next levels opened levels' next') :
    InOrder levels' next' := by
  cases shifts with
  | stays alike => exact inOrder.stays alike
  | opens alike =>
    have entered := (inOrder.stays alike).opens
    rwa [List.append_assoc] at entered
  | @closes front done outer whole b c alike blocks replies =>
    have split : front ++ outer :: (done ++ [b]) = (front ++ outer :: done) ++ [b] := by simp
    rw [split] at inOrder
    have trimmed := inOrder.stays alike
    rw [List.append_assoc, List.cons_append] at trimmed
    exact trimmed.closes blocks replies
  | reply read =>
    obtain ⟨_, _, _, _, _, _, _, _, _, id⟩ := sections_of_replyOf read
    exact inOrder.addReply id

theorem ordered_of_ofTokens {dialogue : String} {allowed : List String} {tokens : List Token}
    {uses : List PointerUse} (read : ofTokens dialogue allowed tokens = .ok (b, uses)) :
    b.Ordered := by
  have start : InOrder [.empty] 1 := inOrder_singleton ordered_empty (by simp [offers_empty])
  obtain ⟨next, inOrder⟩ := holds_of_ofTokens (fun _ => InOrder) start inOrder_shifts read
  exact inOrder.each b (List.mem_singleton_self b)

/-! Running -/

/-- Whether a reply stands in front of another where both are shown: one that overtakes the other
does, and otherwise the one that comes first in the script. -/
def ShownBefore (b : Body) (i j : Nat) : Prop := b.Overtakes i j ∨ i < j ∧ ¬ b.Overtakes j i

variable {inner : Body} {i j : Nat}

theorem sublist_offers_of_mem_blocks (member : inner ∈ b.blocks) :
    inner.offers.Sublist (b.blocks.flatMap offers) := by
  rw [List.flatMap_def]
  exact List.sublist_flatten_of_mem (List.mem_map_of_mem member)

theorem Within.offers_sublist (within : b.Within c) : c.offers.Sublist b.offers := by
  induction within with
  | itself => exact List.Sublist.refl _
  | @block b inner c member _ ih =>
    rw [offers_eq b]
    exact (ih.trans (sublist_offers_of_mem_blocks member)).trans (List.sublist_append_left _ _)

theorem Overtakes.block (member : inner ∈ b.blocks) (overtakes : inner.Overtakes i j) :
    b.Overtakes i j := by
  obtain ⟨later, c, within, there⟩ := overtakes
  exact ⟨later, c, .block member within, there⟩

/-- In the order in which replies are run, one is in front of another only if it comes first in the
script or overtakes the other. -/
theorem Ordered.offers_pairwise (ordered : b.Ordered) :
    b.offers.Pairwise fun r t => r.id < t.id ∨ b.Overtakes r.id t.id := by
  induction ordered with
  | @of b own blocks apart inside ih =>
    rw [offers_eq]
    refine List.pairwise_append.mpr ⟨List.pairwise_flatMap.mpr ⟨?_, ?_⟩, ?_, ?_⟩
    · intro inner member
      exact (ih inner member).imp fun before => before.imp_right (.block member)
    · exact blocks.imp fun precedes r mine t yours => .inl (precedes r mine t yours)
    · exact own.imp .inl
    · intro r block t mine
      obtain ⟨inner, member, there⟩ := List.mem_flatMap.mp block
      rcases Nat.lt_or_gt_of_ne (apart r block t mine) with first | behind
      · exact .inl first
      · exact .inr ⟨behind, b, .itself, ⟨t, mine, rfl⟩, inner, member, r,
          inner.nested_perm_offers.mem_iff.mpr there, rfl⟩

theorem Ordered.nodup (ordered : b.Ordered) : (b.offers.map (·.id)).Nodup := by
  refine List.pairwise_map.mpr (ordered.offers_pairwise.imp fun before => ?_)
  rcases before with first | overtakes
  · exact first.ne
  · exact overtakes.1.ne'

theorem Overtakes.sublist (overtakes : b.Overtakes i j) :
    [i, j].Sublist (b.offers.map (·.id)) := by
  obtain ⟨_, c, within, ⟨t, mine, rfl⟩, inner, member, r, there, rfl⟩ := overtakes
  have block : r ∈ c.blocks.flatMap offers :=
    List.mem_flatMap.mpr ⟨inner, member, inner.nested_perm_offers.mem_iff.mp there⟩
  have pair : [r, t].Sublist c.offers := by
    rw [offers_eq]
    exact (List.singleton_sublist.mpr block).append (List.singleton_sublist.mpr mine)
  exact (pair.trans within.offers_sublist).map (·.id)

theorem not_sublist_swap {α : Type} {xs : List α} {x y : α} (distinct : xs.Nodup)
    (one : [x, y].Sublist xs) : ¬ [y, x].Sublist xs := by
  intro two
  induction xs with
  | nil => cases one
  | cons first rest ih =>
    obtain ⟨fresh, distinct⟩ := List.nodup_cons.mp distinct
    cases one with
    | cons _ one =>
      cases two with
      | cons _ two => exact ih distinct one two
      | cons_cons _ _ => exact fresh (one.subset (by simp))
    | cons_cons _ one =>
      cases two with
      | cons _ two => exact fresh (two.subset (by simp))
      | cons_cons _ _ => exact fresh (one.subset (by simp))

theorem Ordered.ids_pairwise (ordered : b.Ordered) :
    (b.offers.map (·.id)).Pairwise b.ShownBefore := by
  refine List.pairwise_iff_forall_sublist.mpr fun {i j} pair => ?_
  have before : (b.offers.map (·.id)).Pairwise fun i j => i < j ∨ b.Overtakes i j :=
    List.pairwise_map.mpr ordered.offers_pairwise
  rcases List.pairwise_iff_forall_sublist.mp before pair with first | overtakes
  · exact .inr ⟨first, fun back => not_sublist_swap ordered.nodup pair back.sublist⟩
  · exact .inl overtakes

/-- Numbers go up along a row in which each stands rightly in front of the next exactly if none of
them overtakes another. -/
theorem increasing_iff {ids : List Nat} (shown : ids.Pairwise b.ShownBefore) :
    ids.Pairwise (· < ·) ↔ ∀ i ∈ ids, ∀ j ∈ ids, ¬ b.Overtakes i j := by
  constructor
  · intro increasing
    have neither : ids.Pairwise fun i j => ¬ b.Overtakes i j ∧ ¬ b.Overtakes j i := by
      refine (increasing.and shown).imp fun {i j} both => ?_
      obtain ⟨first, overtakes | ⟨_, back⟩⟩ := both
      · exact absurd overtakes.1 (Nat.lt_asymm first)
      · exact ⟨fun overtakes => Nat.lt_asymm first overtakes.1, back⟩
    have symmetric : Std.Symm fun i j => ¬ b.Overtakes i j ∧ ¬ b.Overtakes j i :=
      ⟨fun _ _ => And.symm⟩
    have never (i : Nat) : ¬ b.Overtakes i i := fun overtakes => Nat.lt_irrefl i overtakes.1
    intro i mine j yours
    exact (neither.forall_of_forall (fun i _ => ⟨never i, never i⟩) mine yours).1
  · intro none
    refine shown.imp_of_mem fun {i j} mine yours before => ?_
    rcases before with overtakes | first
    · exact (none i mine j yours overtakes).elim
    · exact first.1

/-- Whenever a body that has been read is run, the replies that are shown stand in the order of the
script, except that one in a block overtakes those in front of the block in the same body. So their
numbers go up exactly if none of them overtakes another. -/
theorem shown_in_order {dialogue : String} {allowed : List String} {tokens : List Token}
    {uses : List PointerUse} {σ : Type} {scope : Scope σ} {trimmed : Bool} {vars : σ}
    {random : RandomSource} {stage : Stage σ}
    (read : ofTokens dialogue allowed tokens = .ok (b, uses))
    (ran : b.runFresh scope trimmed vars random = (.ok (), stage)) :
    let ids := stage.output.replies.map (·.id)
    ids.Pairwise b.ShownBefore ∧
      (ids.Pairwise (· < ·) ↔ ∀ i ∈ ids, ∀ j ∈ ids, ¬ b.Overtakes i j) := by
  have shown := (ordered_of_ofTokens read).ids_pairwise.sublist (shown_ids ran)
  exact ⟨shown, increasing_iff shown⟩

/-- A reply in a block that is written behind another reply is the one that overtakes. -/
theorem second_overtakes_first :
    ∃ tokens b uses stage,
      Tokenizer.readText "[[A|Start]]\n<<if true>>\n[[B|Next]]\n<<endif>>\n" = .ok tokens ∧
      ofTokens "d" standardCommands tokens = .ok (b, uses) ∧
      b.runFresh Scope.plain true [] (.ofDraws []) = (.ok (), stage) ∧
      stage.output.replies.map (·.id) = [2, 1] ∧ b.Overtakes 2 1 := by
  obtain ⟨tokens, b, uses, stage, cut, read, ran, _, ids⟩ := shown_of_block_behind_reply
  have order := (shown_in_order read ran).1
  rw [ids] at order
  rcases List.pairwise_pair.mp order with overtakes | first
  · exact ⟨tokens, b, uses, stage, cut, read, ran, ids, overtakes⟩
  · exact absurd first.1 (by decide)

/-- Replies are not always shown in the order of the script. -/
theorem not_always_in_script_order :
    ¬ ∀ (dialogue : String) (allowed : List String) (text : String) (b : Body)
      (uses : List PointerUse) (σ : Type) (scope : Scope σ) (trimmed : Bool) (vars : σ)
      (random : RandomSource) (stage : Stage σ),
      ofText dialogue allowed text = .ok (b, uses) →
      b.runFresh scope trimmed vars random = (.ok (), stage) →
      (stage.output.replies.map (·.id)).Pairwise (· < ·) := by
  intro always
  obtain ⟨tokens, b, uses, stage, cut, read, ran, _, ids⟩ := shown_of_block_behind_reply
  have whole : ofText "d" standardCommands
      "[[A|Start]]\n<<if true>>\n[[B|Next]]\n<<endif>>\n" = .ok (b, uses) := by
    rw [ofText, cut]
    exact read
  have increasing := always _ _ _ _ _ _ _ _ _ _ _ whole ran
  rw [ids] at increasing
  exact absurd (List.pairwise_pair.mp increasing) (by decide)

end Body
end Parley
