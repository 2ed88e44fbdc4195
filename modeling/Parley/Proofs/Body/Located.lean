import Parley.Proofs.Body.Pieces
import Mathlib.Data.List.Chain

/-!
The characters of tokens with the places where they stand in a script. The tokens of a line spell
the line from its start on; what they leave out at its end is a comment, or a backslash that nothing
follows.
-/
namespace Parley

/-- The characters of a stretch of a line with their places. -/
def placed (p : Position) : List Char → List (Char × Position)
  | [] => []
  | c :: rest => (c, p) :: placed ⟨p.line, p.column + 1⟩ rest

theorem placed_append (p : Position) (cs ds : List Char) :
    placed p (cs ++ ds) = placed p cs ++ placed ⟨p.line, p.column + cs.length⟩ ds := by
  induction cs generalizing p with
  | nil => rfl
  | cons c rest ih =>
    rw [List.cons_append, placed, ih, List.length_cons, placed, List.cons_append,
      Nat.add_assoc, Nat.add_comm 1]

@[simp] theorem map_fst_placed (p : Position) (cs : List Char) :
    (placed p cs).map Prod.fst = cs := by
  induction cs generalizing p with
  | nil => rfl
  | cons c rest ih => rw [placed, List.map_cons, ih]

theorem getElem?_placed (p : Position) (cs : List Char) (k : Nat) :
    (placed p cs)[k]? = cs[k]?.map fun c => (c, ⟨p.line, p.column + k⟩) := by
  induction cs generalizing p k with
  | nil => rfl
  | cons c rest ih =>
    cases k with
    | zero => rfl
    | succ k =>
      rw [placed, List.getElem?_cons_succ, ih, List.getElem?_cons_succ]
      simp only [Nat.add_assoc, Nat.add_comm 1]

namespace Token

def placed (t : Token) : List (Char × Position) := Parley.placed t.position t.source.toList

/-- What some tokens spell. -/
def sources (tokens : List Token) : List Char := tokens.flatMap (·.source.toList)

/-- What some tokens spell, with the places in the script. -/
def places (tokens : List Token) : List (Char × Position) := tokens.flatMap placed

theorem map_fst_places (tokens : List Token) : (places tokens).map Prod.fst = sources tokens := by
  simp only [places, sources, List.map_flatMap]
  congr
  funext t
  exact map_fst_placed _ _

/-- The tokens of one line. -/
def ofLine (number : Nat) (tokens : List Token) : List Token :=
  tokens.filter fun t => t.position.line = number

theorem places_append (ts us : List Token) : places (ts ++ us) = places ts ++ places us :=
  List.flatMap_append

theorem places_subset {ts us : List Token} (part : ts ⊆ us) : places ts ⊆ places us := by
  intro x member
  obtain ⟨t, inside, mine⟩ := List.mem_flatMap.mp member
  exact List.mem_flatMap.mpr ⟨t, part inside, mine⟩

theorem places_cons (content : Content) {source : List Char} {p : Position}
    {rest : List Token} (behind :
      places rest = Parley.placed ⟨p.line, p.column + source.length⟩ (sources rest)) :
    places (⟨content, String.ofList source, p⟩ :: rest) =
      Parley.placed p (sources (⟨content, String.ofList source, p⟩ :: rest)) := by
  have first : (⟨content, String.ofList source, p⟩ : Token).source.toList = source :=
    String.toList_ofList
  unfold places sources at behind ⊢
  rw [List.flatMap_cons, List.flatMap_cons, first, placed_append, ← behind, Token.placed, first]

end Token

namespace Tokenizer

variable {state final : Tokenizer}

/-- Whether a stretch of text without a value is only the last of some pieces, and a lone
backslash. -/
def Tapered : List Piece → Prop
  | [] => True
  | p :: rest => (p.isPlain → p.value = [] → rest = [] ∧ p.source = ['\\']) ∧ Tapered rest

theorem valueless_of_step {c : Char} {rest value : List Char} {further : Nat}
    (stepped : step state c rest = .piece none value further final) (none : value = []) :
    rest = [] ∧ c = '\\' := by
  revert stepped
  fun_cases step state c rest <;> rintro ⟨⟩
  all_goals try cases none
  rename_i backslash
  exact ⟨by simpa using none, backslash⟩

/-- Where a character is doubled, the text goes on with it. -/
theorem exists_double {c d : Char} {rest : List Char}
    (both : (c == d && rest.head? == some d) = true) : c = d ∧ ∃ more, rest = d :: more := by
  cases rest with
  | nil => simp at both
  | cons e more =>
    obtain ⟨rfl, rfl⟩ : c = d ∧ e = d := by simpa using both
    exact ⟨rfl, more, rfl⟩

theorem slashes_of_step {c : Char} {rest : List Char} (stepped : step state c rest = .comment) :
    ['/', '/'] <+: c :: rest := by
  revert stepped
  fun_cases step state c rest <;> rintro ⟨⟩
  rename_i both
  obtain ⟨rfl, more, rfl⟩ := exists_double both
  exact ⟨more, rfl⟩

theorem yields_spell {cs : List Char} {ps : List Piece} (read : Yields state cs ps final) :
    Tapered ps ∧ ∃ left, cs = sourceOf ps ++ left ∧
      (left = [] ∨ ['/', '/'] <+: left ∧ Filled ps) := by
  induction read with
  | nothing => exact ⟨trivial, [], rfl, .inl rfl⟩
  | @comment state c rest comment =>
    exact ⟨trivial, c :: rest, rfl, .inr ⟨slashes_of_step comment, by simp [Filled]⟩⟩
  | @piece state after final c rest value content further others stepped later ih =>
    obtain ⟨tapered, left, spelled, ends⟩ := ih
    have valueless (plain : (Piece.make content (c :: rest.take further) value).isPlain)
        (none : (Piece.make content (c :: rest.take further) value).value = []) :
        rest = [] ∧ c = '\\' := by
      cases content with
      | some content => cases plain
      | none => exact valueless_of_step stepped none
    refine ⟨⟨?_, tapered⟩, left, ?_, ?_⟩
    · intro plain none
      obtain ⟨rfl, rfl⟩ := valueless plain none
      rw [List.drop_nil] at later
      cases later
      exact ⟨rfl, by simp⟩
    · rw [sourceOf, List.flatMap_cons, Piece.source_make, List.append_assoc]
      change _ = (c :: rest.take further) ++ (sourceOf others ++ left)
      rw [← spelled, List.cons_append, List.take_append_drop]
    · refine ends.imp_right fun ends => ⟨ends.1, ?_⟩
      obtain ⟨comment, filled⟩ := ends
      intro q member plain none
      rcases List.mem_cons.mp member with rfl | later
      · obtain ⟨rfl, rfl⟩ := valueless plain none
        obtain ⟨-, rfl⟩ := List.append_eq_nil_iff.mp (spelled.symm.trans List.drop_nil)
        simp at comment
      · exact filled q later plain none

theorem tapered_join {ps : List Piece} (tapered : Tapered ps) : Tapered (join ps) := by
  fun_induction join ps with
  | case1 => trivial
  | case2 content source rest ih => exact ⟨fun plain => (by cases plain), ih tapered.2⟩
  | case3 source value rest more others following same ih =>
    rw [same] at ih
    have behind := ih tapered.2
    refine ⟨fun _ none => ?_, behind.2⟩
    have valueless : value = [] := (List.append_eq_nil_iff.mp none).1
    obtain ⟨rfl, -⟩ := tapered.1 rfl valueless
    cases same
  | case4 source value rest other ih =>
    refine ⟨fun _ none => ?_, ih tapered.2⟩
    obtain ⟨rfl, only⟩ := tapered.1 rfl none
    exact ⟨rfl, only⟩

theorem sourceOf_join (ps : List Piece) : sourceOf (join ps) = sourceOf ps := by
  fun_induction join ps with
  | case1 => rfl
  | case2 content source rest ih => simpa [sourceOf] using ih
  | case3 source value rest more others following same ih =>
    rw [same] at ih
    simp only [sourceOf, List.flatMap_cons, Piece.source] at ih ⊢
    rw [List.append_assoc, ih]
  | case4 source value rest other ih =>
    simp only [sourceOf, List.flatMap_cons] at ih ⊢
    rw [ih]

/-- The tokens of some pieces stand side by side from the place on where the pieces start. -/
theorem places_assemble {ps : List Piece} (tapered : Tapered ps) (p : Position) :
    Token.places (assemble p ps) = placed p (Token.sources (assemble p ps)) ∧
      ∃ left, sourceOf ps = Token.sources (assemble p ps) ++ left ∧
        (left = [] ∨ left = ['\\'] ∧ ¬ Filled ps) := by
  induction ps generalizing p with
  | nil => exact ⟨rfl, [], rfl, .inl rfl⟩
  | cons q rest ih =>
    obtain ⟨behind, left, spelled, ends⟩ := ih tapered.2 ⟨p.line, p.column + q.source.length⟩
    have ends : left = [] ∨ left = ['\\'] ∧ ¬ Filled (q :: rest) :=
      ends.imp_right fun ⟨backslash, short⟩ =>
        ⟨backslash, fun filled => short fun r inside => filled r (List.mem_cons_of_mem q inside)⟩
    have kept (content : Content) :
        sourceOf (q :: rest) = Token.sources (⟨content, String.ofList q.source, p⟩ ::
          assemble ⟨p.line, p.column + q.source.length⟩ rest) ++ left := by
      rw [sourceOf, List.flatMap_cons, Token.sources, List.flatMap_cons, String.toList_ofList,
        List.append_assoc]
      exact congrArg (q.source ++ ·) spelled
    cases q with
    | mark content source => exact ⟨Token.places_cons content behind, left, kept content, ends⟩
    | plain source value =>
      rw [assemble]
      split
      case isTrue none =>
        obtain ⟨rfl, only⟩ := tapered.1 rfl (List.isEmpty_iff.mp none)
        refine ⟨rfl, ['\\'], by simp [sourceOf, only, assemble, Token.sources], .inr ⟨rfl, ?_⟩⟩
        exact fun filled => filled _ List.mem_cons_self rfl (List.isEmpty_iff.mp none)
      case isFalse => exact ⟨Token.places_cons _ behind, left, kept _, ends⟩

/-- What is left of a line behind its tokens. -/
def IsRest (left : List Char) : Prop := left = [] ∨ left = ['\\'] ∨ ['/', '/'] <+: left

/-- The tokens of a line spell it from its first character on. -/
theorem readLine_spells {number : Nat} {line : List Char} {tokens : List Token}
    (read : readLine state number line = (.ok tokens, final)) :
    Token.places tokens = placed ⟨number, 1⟩ (Token.sources tokens) ∧
      ∃ left, line = Token.sources tokens ++ left ∧ IsRest left := by
  obtain ⟨ps, whole, rfl⟩ := yields_of_readLine read
  obtain ⟨tapered, comment, line_eq, ends⟩ := yields_spell whole
  obtain ⟨side_by_side, left, spelled, backslash⟩ :=
    places_assemble (tapered_join tapered) ⟨number, 1⟩
  refine ⟨side_by_side, left ++ comment, ?_, ?_⟩
  · rw [← List.append_assoc, ← spelled, sourceOf_join, line_eq]
  · rcases ends with rfl | ⟨slashes, filled⟩
    · rw [List.append_nil]
      exact backslash.imp_right fun both => .inl both.1
    · obtain rfl := backslash.resolve_right fun both => both.2 (value_of_mem_join filled)
      exact .inr (.inr slashes)

/-! No token is without characters. -/

theorem some_of_yields {cs : List Char} {ps : List Piece} (read : Yields state cs ps final) :
    ∀ p ∈ ps, p.source ≠ [] := by
  induction read with
  | nothing => simp
  | comment => simp
  | piece _ _ ih => exact List.forall_mem_cons.mpr ⟨by simp, ih⟩

theorem some_of_readLine {number : Nat} {line : List Char} {tokens : List Token}
    (read : readLine state number line = (.ok tokens, final)) :
    ∀ t ∈ tokens, t.source.toList ≠ [] := by
  obtain ⟨ps, whole, rfl⟩ := yields_of_readLine read
  intro t member
  obtain ⟨p, inside, -, source, -⟩ := exists_of_assemble member
  have some := forall_join (fun _ _ _ _ own _ => List.append_ne_nil_of_left_ne_nil own _)
    (some_of_yields whole)
  rw [source]
  exact some p inside

/-! Several lines -/

theorem line_of_readLine {number : Nat} {line : List Char} {tokens : List Token}
    (read : readLine state number line = (.ok tokens, final)) :
    ∀ t ∈ tokens, t.position.line = number := by
  obtain ⟨ps, -, rfl⟩ := yields_of_readLine read
  intro t member
  obtain ⟨p, -, -, -, line⟩ := exists_of_assemble member
  exact line

theorem readLines_cons {number : Nat} {line : List Char} {rest : List (List Char)}
    {tokens : List Token} (read : (readLines state number (line :: rest)).1 = .ok tokens) :
    ∃ first after others, readLine state number line = (.ok first, after) ∧
      (readLines after (number + 1) rest).1 = .ok others ∧ tokens = first ++ others := by
  obtain ⟨each, found, rfl⟩ := map_eq_ok_iff.mp read
  have found : (readEach state number (line :: rest)).1 = each.map .ok :=
    mapM_id_eq_ok_iff.mp found
  rw [readEach] at found
  split at found
  · cases each <;> cases found
  · rename_i first after here
    obtain ⟨mine, others, rfl, same, later⟩ := List.map_eq_cons_iff.mp found.symm
    cases same
    refine ⟨first, after, others.flatten, here, ?_, rfl⟩
    exact map_eq_ok_iff.mpr ⟨others, mapM_id_eq_ok_iff.mpr later.symm, rfl⟩

theorem line_of_readLines {number : Nat} {lines : List (List Char)} {tokens : List Token}
    (read : (readLines state number lines).1 = .ok tokens) :
    ∀ t ∈ tokens, number ≤ t.position.line := by
  induction lines generalizing state number tokens with
  | nil =>
    cases read
    simp
  | cons line rest ih =>
    obtain ⟨first, after, others, here, later, rfl⟩ := readLines_cons read
    intro t member
    rcases List.mem_append.mp member with mine | other
    · exact Nat.le_of_eq (line_of_readLine here t mine).symm
    · exact Nat.le_of_succ_le (ih later t other)

theorem some_of_readLines {number : Nat} {lines : List (List Char)} {tokens : List Token}
    (read : (readLines state number lines).1 = .ok tokens) :
    ∀ t ∈ tokens, t.source.toList ≠ [] := by
  induction lines generalizing state number tokens with
  | nil =>
    cases read
    simp
  | cons line rest ih =>
    obtain ⟨first, after, others, here, later, rfl⟩ := readLines_cons read
    exact List.forall_mem_append.mpr ⟨some_of_readLine here, ih later⟩

/-- The tokens that stand in a line are those read from it. -/
theorem readLine_of_readLines {number i : Nat} {lines : List (List Char)} {line : List Char}
    {tokens : List Token} (read : (readLines state number lines).1 = .ok tokens)
    (there : lines[i]? = some line) : ∃ before after,
      readLine before (number + i) line = (.ok (Token.ofLine (number + i) tokens), after) := by
  induction lines generalizing state number i tokens with
  | nil => cases there
  | cons other rest ih =>
    obtain ⟨first, after, others, here, later, rfl⟩ := readLines_cons read
    have own := line_of_readLine here
    have behind := line_of_readLines later
    cases i with
    | zero =>
      cases there
      have all : Token.ofLine (number + 0) (first ++ others) = first := by
        unfold Token.ofLine
        rw [List.filter_append, List.filter_eq_self.mpr, List.filter_eq_nil_iff.mpr,
          List.append_nil]
        · intro t member
          have := behind t member
          simp
          omega
        · intro t member
          simpa using own t member
      rw [all]
      exact ⟨state, after, here⟩
    | succ i =>
      obtain ⟨before, next, found⟩ := ih later there
      have all : Token.ofLine (number + 1 + i) (first ++ others) =
          Token.ofLine (number + 1 + i) others := by
        unfold Token.ofLine
        rw [List.filter_append, List.filter_eq_nil_iff.mpr, List.nil_append]
        intro t member
        have := own t member
        simp
        omega
      rw [show number + (i + 1) = number + 1 + i by omega, all]
      exact ⟨before, next, found⟩

/-- Whether a character stands at a place in some lines numbered from `number` on. -/
def StandsIn (number : Nat) (lines : List (List Char)) (x : Char × Position) : Prop :=
  ∃ i j row, lines[i]? = some row ∧ row[j]? = some x.1 ∧ x.2 = ⟨number + i, j + 1⟩

/-- The characters of tokens stand where their places say. -/
theorem standsIn_of_readLines {number : Nat} {lines : List (List Char)} {tokens : List Token}
    (read : (readLines state number lines).1 = .ok tokens) :
    ∀ x ∈ Token.places tokens, StandsIn number lines x := by
  induction lines generalizing state number tokens with
  | nil =>
    cases read
    simp [Token.places]
  | cons line rest ih =>
    obtain ⟨first, after, others, here, later, rfl⟩ := readLines_cons read
    intro x member
    rw [Token.places_append] at member
    rcases List.mem_append.mp member with mine | other
    · obtain ⟨side_by_side, left, spelled, -⟩ := readLine_spells here
      rw [side_by_side] at mine
      obtain ⟨j, found⟩ := List.mem_iff_getElem?.mp mine
      rw [getElem?_placed] at found
      obtain ⟨c, written, rfl⟩ := Option.map_eq_some_iff.mp found
      have inside : j < (Token.sources first).length := (List.getElem?_eq_some_iff.mp written).1
      refine ⟨0, j, line, rfl, ?_, ?_⟩
      · rw [spelled, List.getElem?_append_left inside, written]
      · rw [Nat.add_comm 1 j]
        rfl
    · obtain ⟨i, j, found, there, written, same⟩ := ih later x other
      refine ⟨i + 1, j, found, there, written, ?_⟩
      rw [same, Nat.add_right_comm, Nat.add_assoc]

end Tokenizer
end Parley
