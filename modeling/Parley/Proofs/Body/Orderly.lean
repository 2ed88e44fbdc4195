import Parley.Proofs.Body.Acceptance

/-!
What holds of every body that is read from tokens, whatever the tokens are: text is joined and
trimmed in the body, in every clause and in every statement of a reply, and each part is of a kind
that may stand where it stands.
-/
namespace Parley

/-- What nothing can be dropped from has nothing to drop at its ends. -/
theorem ends_of_dropped {α : Type} {p : α → Bool} {xs : List α}
    (dropped : (xs.dropWhile p).rdropWhile p = xs) :
    (∀ a ∈ xs.head?, p a = false) ∧ ∀ a ∈ xs.getLast?, p a = false := by
  have behind : (xs.dropWhile p).length ≤ xs.length := (List.dropWhile_suffix p).length_le
  have front : xs.length ≤ (xs.dropWhile p).length := by
    have prefixed := (List.rdropWhile_prefix p (xs.dropWhile p)).length_le
    rwa [dropped] at prefixed
  have start : xs.dropWhile p = xs :=
    (List.dropWhile_suffix p).eq_of_length (Nat.le_antisymm behind front)
  have stop : xs.rdropWhile p = xs := by rwa [start] at dropped
  constructor
  · intro a head
    have none := List.head?_dropWhile_not p xs
    rw [start, head] at none
    exact none
  · intro a last
    obtain ⟨nonempty, rfl⟩ := List.mem_getLast?_eq_getLast last
    exact Bool.eq_false_iff.mpr (List.rdropWhile_eq_self_iff.mp stop nonempty)

namespace Segment

variable {κ : Type}

/-- Whether no text is empty, none stands beside other text, and there are no blanks at both
ends. -/
structure Tidy (segments : List (Segment κ)) : Prop where
  filled : ∀ t, .text t ∈ segments → t.isEmpty = false
  apart : segments.IsChain fun s u => s.isText = false ∨ u.isText = false
  first : ∀ t, segments.head? = some (.text t) → ∀ a ∈ t.atoms.head?, a.isBlank = false
  last : ∀ t, segments.getLast? = some (.text t) → ∀ a ∈ t.atoms.getLast?, a.isBlank = false

theorem tidy_of_trimmed {segments : List (Segment κ)} (merged : Merged segments)
    (trimmed : trim segments = segments) : Tidy segments := by
  obtain ⟨filled, apart⟩ := merged_iff.mp merged
  have dropped := (atoms_trim segments).symm
  rw [trimmed] at dropped
  obtain ⟨start, stop⟩ := ends_of_dropped dropped
  refine ⟨filled, apart, fun t first a head => ?_, fun t last a tail => ?_⟩
  · obtain ⟨rest, rfl⟩ := List.head?_eq_some_iff.mp first
    refine start (.inl a) ?_
    rw [atoms, List.head?_append, List.head?_map, head]
    rfl
  · obtain ⟨rest, rfl⟩ := List.getLast?_eq_some_iff.mp last
    refine stop (.inl a) ?_
    rw [atoms_append, atoms, atoms, List.append_nil, List.getLast?_append, List.getLast?_map, tail]
    rfl

end Segment

namespace Body

theorem tidy_of_statementOf {tokens : List Token} {segments : List (Segment Input)}
    (read : statementOf tokens = .ok (some segments)) : segments ≠ [] ∧ Segment.Tidy segments := by
  obtain ⟨found, run, read⟩ := bind_eq_ok_iff.mp read
  have joined {items : List Item} {before after : List (Segment Input)}
      (merged : Segment.Merged before) (run : items.foldlM statementStep before = .ok after) :
      Segment.Merged after := by
    induction items generalizing before with
    | nil =>
      cases run
      exact merged
    | cons item rest ih =>
      obtain ⟨mid, first, later⟩ := foldlM_cons_eq_ok_iff.mp run
      exact ih (merged_of_statementStep merged first) later
  have merged := @joined _ [] _ trivial run
  dsimp only at read
  split at read
  · cases read
  · rename_i filled
    cases read
    exact ⟨by simpa using filled,
      Segment.tidy_of_trimmed (Segment.merged_trim merged) (Segment.trim_idempotent _)⟩

end Body

/-- Whether a number is finite and not below zero. -/
structure Number.IsWeight (w : Number) : Prop where
  finite : ∃ x, w = .binary x ∧ x.isFinite
  least : w.value.order? (.int 0) ≠ some .lt

theorem Body.isWeight_of_weightOf {a : Attributes} {w : Number} (read : weightOf a = .ok w) :
    w.IsWeight := by
  have weighs := weighs_of_weightOf read
  cases w with
  | whole n => exact weighs.elim
  | binary x =>
    obtain ⟨finite, sign⟩ := weighs
    refine ⟨⟨x, rfl, finite⟩, ?_⟩
    cases x with
    | nan => cases finite
    | infinite negative => cases finite
    | finite negative significand power h =>
      -- a sign in front of a weight is that of zero
      have least : (if negative then -(Binary64.units significand power : Int)
          else Binary64.units significand power) = Binary64.units significand power := by
        rcases sign with positive | zero
        · rw [show negative = false from positive]
          rfl
        · have none : Binary64.units significand power = 0 := by
            rw [Binary64.units, beq_iff_eq.mp zero, Nat.zero_mul]
          rw [none]
          exact ite_self 0
      simp only [Number.value, Value.order?, Binary64.compareInt?, least, Int.zero_mul,
        Option.map_some, Option.getD_some, ne_eq, Option.some.injEq, Ordering.swap_eq_lt,
        compare_gt_iff_gt]
      omega

/-- Whether a reply has nothing but tidy text and inputs for its statement, and no assignment inside
what its commands assign. -/
structure Reply.Orderly (r : Reply) : Prop where
  statement : ∀ segments ∈ r.statement, segments ≠ [] ∧ Segment.Tidy segments
  sets : ∀ s, .set s ∈ r.commands → s.value.assigns = false

namespace Body

theorem orderly_of_replyOf {dialogue : String} {id : Nat} {e : Enclosed} {r : Reply}
    {use : PointerUse} (read : replyOf dialogue id e = .ok (r, use)) : r.Orderly := by
  refine ⟨fun segments given => ?_, fun s => assigns_of_replyOf read⟩
  obtain ⟨statement, _, _, _, _, said, _⟩ := sections_of_replyOf read
  rw [given] at said
  cases statement with
  | none => cases said
  | some part => exact tidy_of_statementOf said

/-- What holds of the parts of every body: actions, choices, assignments and choices by chance are
the only commands, no condition assigns and no assignment has another one inside, and not more than
one reply comes without a statement. -/
def Law.orderly : Law where
  set s := s.value.assigns = false
  condition e := e.assigns = false
  weight w := w.IsWeight
  input _ := False
  reply r := r.Orderly
  draft b := Segment.Merged b.segments ∧ b.replies.countP Reply.isAutoforward ≤ 1
  whole b := Segment.Tidy b.segments ∧ b.replies.countP Reply.isAutoforward ≤ 1

theorem orderly_kept (dialogue : String) (uses : List PointerUse) :
    Law.orderly.Kept dialogue standardCommands (fun _ => True) uses where
  text _ _ := trivial
  joined _ _ _ _ := trivial
  trimStart _ _ := trivial
  trimEnd _ _ := trivial
  action _ _ _ _ _ _ := trivial
  set _ _ _ read := assigns_of_assignment read
  condition _ _ _ _ read := assigns_of_condition read
  weight _ _ _ _ _ read := isWeight_of_weightOf read
  input _ _ _ standing _ _ _ := absurd standing (by decide)
  reply _ _ _ _ _ read _ := orderly_of_replyOf read
  draftNil := ⟨trivial, Nat.zero_le 1⟩
  draftText _ _ draft := ⟨Segment.merged_pushText draft.1, draft.2⟩
  draftCommand _ _ draft := ⟨Segment.merged_push draft.1 trivial, draft.2⟩
  draftReply b r draft single := by
    refine ⟨draft.1, ?_⟩
    rw [addReply, List.countP_append, List.countP_singleton]
    rcases single with other | none
    · rw [if_neg (by simp [other])]
      exact draft.2
    · have before : b.replies.countP Reply.isAutoforward = 0 :=
        List.countP_eq_zero.mpr fun s member => by simpa using List.any_eq_false.mp none s member
      rw [before]
      split <;> decide
  whole b draft := ⟨Segment.tidy_of_trimmed (Segment.merged_trim draft.1)
    (Segment.trim_idempotent _), draft.2⟩

/-- Every body that is read is orderly in all its parts, at every depth. -/
theorem orderly_of_ofTokens {dialogue : String} {tokens : List Token} {b : Body}
    {uses : List PointerUse} (read : ofTokens dialogue standardCommands tokens = .ok (b, uses)) :
    b.Meets Law.orderly :=
  meets_of_ofTokens (orderly_kept dialogue uses) (fun _ _ => trivial) read

theorem orderly_of_block_with_replies :
    ∃ tokens b uses,
      Tokenizer.readText " Hi \n<<if $a>>\n[[ A |Start|<<set $b = 1>>]]\n[[Next]]\n<<endif>> " =
        .ok tokens ∧
      ofTokens "d" standardCommands tokens = .ok (b, uses) ∧ b.segments.length = 2 ∧
      b.nested.length = 2 ∧ b.Meets Law.orderly := by
  have summary : (do
      let tokens ← (Tokenizer.readText
        " Hi \n<<if $a>>\n[[ A |Start|<<set $b = 1>>]]\n[[Next]]\n<<endif>> ").toOption
      let read ← (ofTokens "d" standardCommands tokens).toOption
      return (read.1.segments.length, read.1.nested.length)) = some (2, 2) := by
    decide +kernel
  simp only [bind, pure, Option.bind_eq_some_iff, toOption_eq_some_iff, Option.some.injEq,
    Prod.mk.injEq] at summary
  obtain ⟨tokens, cut, ⟨b, uses⟩, read, segments, replies⟩ := summary
  exact ⟨tokens, b, uses, cut, read, segments, replies, orderly_of_ofTokens read⟩

end Body
end Parley
