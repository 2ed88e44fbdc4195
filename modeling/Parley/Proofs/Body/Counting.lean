import Parley.Proofs.Body.Located
import Parley.Proofs.Text.Positions

/-!
Counting line feeds in the characters of tokens. It finds the line that a character stands in, and
its column, exactly if each line on the way has given its line feed to the tokens; and a line gives
it if no comment ends it.
-/
namespace Parley

/-- Whether a character stands next behind another: beside it, or first in a later line. -/
def Follows (x y : Char × Position) : Prop :=
  (y.2 = ⟨x.2.line, x.2.column + 1⟩ ∧ x.1 ≠ '\n') ∨ (x.2.line < y.2.line ∧ y.2.column = 1)

/-- Whether a character stands in front of another, in a line before if it ends its line. -/
def Before (x y : Char × Position) : Prop :=
  x.2.line ≤ y.2.line ∧ (x.1 = '\n' → x.2.line < y.2.line)

theorem Follows.before {x y : Char × Position} (follows : Follows x y) : Before x y := by
  rcases follows with ⟨beside, inner⟩ | ⟨later, -⟩
  · rw [Before, beside]
    exact ⟨Nat.le_refl _, fun feed => (inner feed).elim⟩
  · exact ⟨Nat.le_of_lt later, fun _ => later⟩

instance : IsTrans (Char × Position) Before :=
  ⟨fun _ _ _ first second => ⟨Nat.le_trans first.1 second.1,
    fun feed => Nat.lt_of_lt_of_le (first.2 feed) second.1⟩⟩

theorem pairwise_before {xs : List (Char × Position)} (chain : xs.IsChain Follows) :
    xs.Pairwise Before := List.isChain_iff_pairwise.mp (chain.imp fun _ _ => Follows.before)

theorem position_ext {p q : Position} (line : p.line = q.line) (column : p.column = q.column) :
    p = q := by
  cases p
  cases q
  cases line
  cases column
  rfl

/-- Whether the line feed of a line is among some characters. -/
def HasFeed (front : List (Char × Position)) (i : Nat) : Prop :=
  ∃ y ∈ front, y.1 = '\n' ∧ y.2.line = i

theorem hasFeed_concat {front : List (Char × Position)} {y : Char × Position} {i : Nat} :
    HasFeed (front ++ [y]) i ↔ HasFeed front i ∨ (y.1 = '\n' ∧ y.2.line = i) := by
  simp [HasFeed, or_and_right, exists_or]

/-- A place that counting the characters in front of another comes to: never below the right one,
and right exactly if every line on the way has its line feed counted. -/
structure Counted (origin p : Position) (front : List (Char × Position)) (x : Position) : Prop where
  bound : p.line ≤ x.line
  eq_of_line : p.line = x.line → p = x
  reached : p = x ↔ ∀ i, origin.line ≤ i → i < x.line → HasFeed front i

section Step

variable {origin p x : Position} {front : List (Char × Position)} {y : Char × Position}

theorem counted_origin (origin : Position) : Counted origin origin [] origin where
  bound := Nat.le_refl _
  eq_of_line _ := rfl
  reached := iff_of_true rfl fun i least below => by omega

theorem counted_beside (counted : Counted origin p front y.2) (inside : y.1 ≠ '\n') :
    Counted origin (p.next y.1) (front ++ [y]) ⟨y.2.line, y.2.column + 1⟩ := by
  have moved : p.next y.1 = ⟨p.line, p.column + 1⟩ := if_neg inside
  rw [moved]
  refine ⟨counted.bound, fun same => by rw [counted.eq_of_line same], ?_⟩
  have same : (⟨p.line, p.column + 1⟩ : Position) = ⟨y.2.line, y.2.column + 1⟩ ↔ p = y.2 := by
    constructor
    · intro h
      exact counted.eq_of_line (Position.mk.inj h).1
    · rintro rfl
      rfl
  rw [same, counted.reached]
  simp only [hasFeed_concat, inside, false_and, or_false]

variable (behind : ∀ z ∈ front, Before z y) (later : y.2.line < x.line)
include behind later

theorem counted_feed (counted : Counted origin p front y.2) (feed : y.1 = '\n')
    (least : origin.line ≤ y.2.line) (column : x.column = 1) :
    Counted origin (p.next y.1) (front ++ [y]) x := by
  obtain ⟨bound, eq_of_line, reached⟩ := counted
  have moved : p.next y.1 = ⟨p.line + 1, 1⟩ := if_pos feed
  rw [moved]
  refine ⟨by simp only; omega, fun same => position_ext same column.symm, ?_⟩
  simp only [hasFeed_concat]
  constructor
  · intro same i from_origin below
    have lines : p.line + 1 = x.line := congrArg Position.line same
    have there := eq_of_line (by omega)
    rcases Nat.lt_or_ge i y.2.line with earlier | own
    · exact .inl (reached.mp there i from_origin earlier)
    · exact .inr ⟨feed, by omega⟩
  · intro all
    have beneath : x.line = y.2.line + 1 := by
      by_contra apart
      rcases all (y.2.line + 1) (by omega) (by omega) with ⟨z, member, _, same⟩ | ⟨_, same⟩
      · have := (behind z member).1
        omega
      · omega
    have there : p = y.2 := reached.mpr fun i least below =>
      (all i least (by omega)).resolve_right fun own => by omega
    exact position_ext (by rw [there, beneath]) column.symm

/-- Where a line has not given its line feed, the count falls behind for good. -/
theorem counted_short (counted : Counted origin p front y.2) (inside : y.1 ≠ '\n')
    (least : origin.line ≤ y.2.line) : Counted origin (p.next y.1) (front ++ [y]) x := by
  have moved : p.next y.1 = ⟨p.line, p.column + 1⟩ := if_neg inside
  have bound := counted.bound
  have short : p.line ≠ x.line := by omega
  rw [moved]
  refine ⟨by simp only; omega, fun same => (short same).elim, iff_of_false ?_ ?_⟩
  · intro same
    have lines := congrArg Position.line same
    exact short lines
  · intro all
    rcases hasFeed_concat.mp (all y.2.line least later) with ⟨z, member, ends, same⟩ | ⟨ends, -⟩
    · have := (behind z member).2 ends
      omega
    · exact inside ends

end Step

theorem count_lines {origin : Position} {front : List (Char × Position)} {x : Char × Position}
    (chain : (front ++ [x]).IsChain Follows) (first : ∀ y ∈ (front ++ [x]).head?, y.2 = origin) :
    Counted origin (origin.after (front.map Prod.fst)) front x.2 := by
  induction front using List.reverseRecOn generalizing x with
  | nil =>
    obtain rfl := first x rfl
    exact counted_origin x.2
  | append_singleton front y ih =>
    obtain ⟨inner, -, joint⟩ := List.isChain_append.mp chain
    have start : ∀ z ∈ (front ++ [y]).head?, z.2 = origin := by
      intro z head
      apply first
      rw [List.head?_append, head]
      rfl
    have counted := ih inner start
    have behind : ∀ z ∈ front, Before z y := fun z member =>
      (List.pairwise_append.mp (pairwise_before inner)).2.2 z member y (by simp)
    have least : origin.line ≤ y.2.line := by
      cases front with
      | nil => rw [start y rfl]
      | cons z rest =>
        rw [← start z rfl]
        exact (behind z List.mem_cons_self).1
    rw [List.map_append, Position.after_append]
    change Counted origin ((origin.after (front.map Prod.fst)).next y.1) _ _
    rcases joint y (by simp) x rfl with ⟨beside, inside⟩ | ⟨later, column⟩
    · rw [beside]
      exact counted_beside counted inside
    · by_cases feed : y.1 = '\n'
      · exact counted_feed behind later counted feed least column
      · exact counted_short behind later counted feed least

/-! Lines -/

theorem chain_placed {cs : List Char} (flat : '\n' ∉ cs.dropLast) (p : Position) :
    (placed p cs).IsChain Follows := by
  induction cs generalizing p with
  | nil => exact .nil
  | cons c rest ih =>
    cases rest with
    | nil => exact .singleton _
    | cons d more =>
      rw [List.dropLast_cons_cons, List.mem_cons, not_or] at flat
      refine List.isChain_cons_cons.mpr ⟨.inl ⟨rfl, fun feed => flat.1 feed.symm⟩, ?_⟩
      exact ih flat.2 _

theorem line_of_placed {p : Position} {cs : List Char} :
    ∀ x ∈ placed p cs, x.2.line = p.line := by
  intro x member
  obtain ⟨j, found⟩ := List.mem_iff_getElem?.mp member
  rw [getElem?_placed] at found
  obtain ⟨c, -, rfl⟩ := Option.map_eq_some_iff.mp found
  rfl

theorem flat_of_append {cs ds : List Char} (flat : '\n' ∉ (cs ++ ds).dropLast) :
    '\n' ∉ cs.dropLast := by
  intro member
  apply flat
  cases ds with
  | nil => rwa [List.append_nil]
  | cons d rest =>
    rw [List.dropLast_append_of_ne_nil (by simp)]
    exact List.mem_append_left _ ((List.dropLast_prefix cs).subset member)

/-- Whether a line goes on behind its tokens with a comment. -/
def EndsInComment (tokens : List Token) (line : List Char) : Prop :=
  ∃ more, line = Token.sources tokens ++ '/' :: '/' :: more

namespace Tokenizer

variable {state : Tokenizer} {number : Nat} {lines : List (List Char)} {tokens : List Token}

/-- The characters of tokens stand one behind the other, and the first of them starts a line. -/
theorem chain_of_readLines (flat : ∀ line ∈ lines, '\n' ∉ line.dropLast)
    (read : (readLines state number lines).1 = .ok tokens) :
    (Token.places tokens).IsChain Follows ∧ ∀ x ∈ (Token.places tokens).head?, x.2.column = 1 := by
  induction lines generalizing state number tokens with
  | nil =>
    cases read
    exact ⟨.nil, by simp [Token.places]⟩
  | cons line rest ih =>
    obtain ⟨first, after, others, here, later, rfl⟩ := readLines_cons read
    obtain ⟨chain, start⟩ := ih (fun other inside => flat other (List.mem_cons_of_mem _ inside)) later
    obtain ⟨side_by_side, left, spelled, -⟩ := readLine_spells here
    have own : '\n' ∉ (Token.sources first).dropLast :=
      flat_of_append (spelled ▸ flat line List.mem_cons_self)
    have below : ∀ x ∈ Token.places others, number < x.2.line := by
      intro x member
      obtain ⟨t, inside, mine⟩ := List.mem_flatMap.mp member
      rw [line_of_placed x mine]
      exact line_of_readLines later t inside
    rw [Token.places_append, side_by_side]
    constructor
    · refine List.isChain_append.mpr ⟨chain_placed own _, chain, fun x last y head => .inr ?_⟩
      rw [line_of_placed x (List.mem_of_getLast? last)]
      exact ⟨below y (List.mem_of_head? head), start y head⟩
    · intro x head
      rw [List.head?_append] at head
      cases written : Token.sources first with
      | nil =>
        rw [written] at head
        exact start x head
      | cons c more =>
        rw [written] at head
        cases head
        rfl

theorem hasFeed_iff_mem {n : Nat} :
    HasFeed (Token.places tokens) n ↔ '\n' ∈ Token.sources (Token.ofLine n tokens) := by
  constructor
  · rintro ⟨x, member, feed, rfl⟩
    obtain ⟨t, inside, mine⟩ := List.mem_flatMap.mp member
    have there : t ∈ Token.ofLine x.2.line tokens :=
      List.mem_filter.mpr ⟨inside, by simp [line_of_placed x mine]⟩
    have written : x.1 ∈ t.source.toList := by
      rw [← map_fst_placed t.position t.source.toList]
      exact List.mem_map_of_mem mine
    exact List.mem_flatMap.mpr ⟨t, there, feed ▸ written⟩
  · intro member
    obtain ⟨t, there, written⟩ := List.mem_flatMap.mp member
    obtain ⟨inside, same⟩ := List.mem_filter.mp there
    rw [← map_fst_placed t.position t.source.toList] at written
    obtain ⟨x, mine, feed⟩ := List.mem_map.mp written
    refine ⟨x, List.mem_flatMap.mpr ⟨t, inside, mine⟩, feed, ?_⟩
    rw [line_of_placed x mine]
    simpa using same

/-- A line gives its line feed to the tokens exactly if no comment takes it away. -/
theorem hasFeed_iff (flat : ∀ line ∈ lines, '\n' ∉ line.dropLast)
    (read : (readLines state number lines).1 = .ok tokens) {i : Nat} {line : List Char}
    (there : lines[i]? = some line) :
    HasFeed (Token.places tokens) (number + i) ↔ line.getLast? = some '\n' ∧
      ¬ EndsInComment (Token.ofLine (number + i) tokens) line := by
  obtain ⟨before, after, own⟩ := readLine_of_readLines read there
  obtain ⟨-, left, spelled, rest⟩ := readLine_spells own
  rw [hasFeed_iff_mem]
  have here := flat line (List.mem_of_getElem? there)
  constructor
  · intro member
    have whole : left = [] := by
      by_contra some
      apply here
      rw [spelled, List.dropLast_append_of_ne_nil some]
      exact List.mem_append_left _ member
    rw [whole, List.append_nil] at spelled
    constructor
    · rw [← spelled] at member
      rcases List.eq_nil_or_concat line with none | ⟨front, last, rfl⟩
      · rw [none] at member
        cases member
      · rw [List.concat_eq_append, List.dropLast_concat] at here
        rw [List.concat_eq_append] at member ⊢
        obtain rfl : '\n' = last := by
          rcases List.mem_append.mp member with inner | ends
          · exact (here inner).elim
          · exact List.mem_singleton.mp ends
        exact List.getLast?_concat
    · rintro ⟨more, comment⟩
      have lengths := congrArg List.length (spelled.symm.trans comment)
      simp at lengths
  · rintro ⟨ends, uncommented⟩
    rcases rest with rfl | rfl | ⟨more, slashes⟩
    · rw [spelled, List.append_nil] at ends
      exact List.mem_of_getLast? ends
    · rw [spelled, List.getLast?_concat] at ends
      cases ends
    · exact (uncommented ⟨more, by rw [spelled, ← slashes]; rfl⟩).elim

end Tokenizer
end Parley
