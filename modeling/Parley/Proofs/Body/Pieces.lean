import Parley.Body.Tokenizer
import Parley.Proofs.Outcome
import Mathlib.Data.List.Chain

/-!
Cutting a script back into the pieces that it is put together from. Where every piece is read from
its source in front of what follows it, the tokens of the script are its marks and its stretches of
text, which lines may break but nothing else does.
-/
namespace Parley.Tokenizer

namespace Piece

/-- The piece that a step makes of its characters. -/
def make (content : Option Content) (source value : List Char) : Piece :=
  match content with
  | some content => .mark content source
  | none => .plain source value

@[simp] theorem source_make (content : Option Content) (source value : List Char) :
    (make content source value).source = source := by
  cases content <;> rfl

def isPlain : Piece → Bool
  | plain .. => true
  | mark .. => false

def value : Piece → List Char
  | plain _ value => value
  | mark .. => []

def content : Piece → Content
  | plain _ value => .text (String.ofList value)
  | mark content _ => content

/-- Whether a piece is a character that ends a line. -/
def IsBreak (p : Piece) : Prop := ∃ b, isLineBreak b ∧ p = .plain [b] [b]

/-- Whether no line ends inside a piece. -/
def Whole (p : Piece) : Prop := (∀ c ∈ p.source, isLineBreak c = false) ∨ p.IsBreak

end Piece

/-- The characters of some pieces. -/
def sourceOf (ps : List Piece) : List Char := ps.flatMap Piece.source

/-- The first character of some pieces, or the one behind them. -/
def headOf (ps : List Piece) (next : Option Char) : Option Char := (sourceOf ps).head?.or next

theorem headOf_append (ps qs : List Piece) (next : Option Char) :
    headOf (ps ++ qs) next = headOf ps (headOf qs next) := by
  simp [headOf, sourceOf, List.head?_append, Option.or_assoc]

/-- Whether a piece is read from its source in front of a character, and the markers open behind
it. -/
def Reads (state : Tokenizer) (p : Piece) (next : Option Char) (after : Tokenizer) : Prop :=
  ∃ c more content value, p = Piece.make content (c :: more) value ∧
    ∀ rest, rest.head? = next → step state c (more ++ rest) = .piece content value more.length after

/-- Whether some pieces are read one after the other in front of a character. -/
inductive Legible : Tokenizer → List Piece → Option Char → Tokenizer → Prop
  | nil {state : Tokenizer} {next : Option Char} : Legible state [] next state
  | cons {state mid final : Tokenizer} {p : Piece} {rest : List Piece} {next : Option Char} :
      Reads state p (headOf rest next) mid → Legible mid rest next final →
        Legible state (p :: rest) next final

variable {state mid final : Tokenizer}

theorem legible_append_iff {ps qs : List Piece} {next : Option Char} :
    Legible state (ps ++ qs) next final ↔
      ∃ mid, Legible state ps (headOf qs next) mid ∧ Legible mid qs next final := by
  induction ps generalizing state with
  | nil =>
    constructor
    · intro all
      exact ⟨state, .nil, all⟩
    · rintro ⟨_, first, second⟩
      cases first
      exact second
  | cons p rest ih =>
    constructor
    · intro all
      cases all with
      | cons reads later =>
        obtain ⟨mid, first, second⟩ := ih.mp later
        have before : headOf (rest ++ qs) next = headOf rest (headOf qs next) :=
          headOf_append rest qs next
        change Reads _ p (headOf (rest ++ qs) next) _ at reads
        rw [before] at reads
        exact ⟨mid, .cons reads first, second⟩
    · rintro ⟨mid, first, second⟩
      cases first with
      | cons reads later =>
        rw [← headOf_append] at reads
        exact .cons reads (ih.mpr ⟨mid, later, second⟩)

theorem Legible.append {ps qs : List Piece} {next : Option Char}
    (first : Legible state ps (headOf qs next) mid) (second : Legible mid qs next final) :
    Legible state (ps ++ qs) next final := legible_append_iff.mpr ⟨mid, first, second⟩

/-- A line that starts with legible pieces is cut into them and what follows. -/
theorem pieces_append {ps : List Piece} {behind : List Char}
    (legible : Legible state ps behind.head? mid) (position : Position) :
    pieces state position (sourceOf ps ++ behind) =
      let following := pieces mid ⟨position.line, position.column + (sourceOf ps).length⟩ behind
      (following.1.map (ps ++ ·), following.2) := by
  induction ps generalizing state position with
  | nil =>
    cases legible
    rw [sourceOf, List.flatMap_nil, List.nil_append, List.length_nil, Nat.add_zero]
    obtain ⟨found, final⟩ := pieces mid position behind
    cases found <;> rfl
  | cons p rest ih =>
    cases legible with
    | cons reads later =>
      obtain ⟨c, more, content, value, rfl, stepped⟩ := reads
      have source : sourceOf (Piece.make content (c :: more) value :: rest) =
          c :: (more ++ sourceOf rest) := by
        cases content <;> rfl
      have head : (sourceOf rest ++ behind).head? = headOf rest behind.head? := by
        rw [List.head?_append]
        rfl
      have places : position.column + (c :: more).length + (sourceOf rest).length =
          position.column + (c :: (more ++ sourceOf rest)).length := by
        simp only [List.length_cons, List.length_append]
        omega
      rw [source, List.cons_append, List.append_assoc, pieces, stepped _ head]
      simp only [List.take_left, List.drop_left, ih later, places]
      generalize pieces mid _ behind = following
      obtain ⟨found, final⟩ := following
      cases content <;> cases found <;> rfl

/-- Legible pieces are what a line of them is cut into. -/
theorem pieces_of_legible {ps : List Piece} (legible : Legible state ps none final)
    (position : Position) : pieces state position (sourceOf ps) = (.ok ps, final) := by
  have read := @pieces_append state final ps [] legible position
  rw [List.append_nil, pieces] at read
  rw [read]
  simp [Except.map]

/-! Steps -/

/-- What a step can find in front of some characters: text, a variable or a marker where it can
stand, and the markers that are open behind it. -/
inductive Finds (state : Tokenizer) (rest : List Char) : Option Content → Tokenizer → Prop
  | text : Finds state rest none state
  | var (named : nameAt rest ≠ []) :
      Finds state rest (some (.var (String.ofList (nameAt rest)))) state
  | commandStart (outside : state.inCommand = false) :
      Finds state rest (some .commandStart) { state with inCommand := true }
  | commandEnd (inside : state.inCommand = true) :
      Finds state rest (some .commandEnd) { state with inCommand := false }
  | quoted {parts : List Part} {n : Nat} (inside : state.inCommand = true)
      (read : quotedParts? rest = some (parts, n)) :
      Finds state rest (some (.quoted (Template.ofParts parts))) state
  | replyStart (outside : state.inCommand = false) (apart : state.inReply = false) :
      Finds state rest (some .replyStart) { state with inReply := true }
  | replyEnd (outside : state.inCommand = false) (inside : state.inReply = true) :
      Finds state rest (some .replyEnd) { state with inReply := false }
  | separator (outside : state.inCommand = false) (inside : state.inReply = true) :
      Finds state rest (some .separator) state

theorem finds_of_step {c : Char} {rest : List Char} {content : Option Content} {value : List Char}
    {further : Nat} (stepped : step state c rest = .piece content value further final) :
    Finds state rest content final := by
  revert stepped
  fun_cases step state c rest <;> rintro ⟨⟩
  all_goals try exact .text
  · rename_i named
    exact .var (mt List.isEmpty_iff.mpr named)
  · rename_i shut
    exact .commandStart (Bool.eq_false_iff.mpr shut)
  · rename_i inside
    exact .commandEnd inside
  · rename_i outside shut
    exact .replyStart (by simpa using (Bool.and_eq_true_iff.mp outside).2)
      (Bool.eq_false_iff.mpr shut)
  · rename_i outside inside
    exact .replyEnd (by simpa using (Bool.and_eq_true_iff.mp outside).2) inside
  · rename_i inside parts read
    exact .quoted (Bool.and_eq_true_iff.mp inside).2 read
  · rename_i both
    simp only [Bool.and_eq_true, Bool.not_eq_true'] at both
    exact .separator both.2 both.1.2

/-! What is read -/

/-- How a text yields pieces one after the other, up to its end or to a comment. -/
inductive Yields : Tokenizer → List Char → List Piece → Tokenizer → Prop
  | nothing {state : Tokenizer} : Yields state [] [] state
  | comment {state : Tokenizer} {c : Char} {rest : List Char}
      (stepped : step state c rest = .comment) : Yields state (c :: rest) [] state
  | piece {state after final : Tokenizer} {c : Char} {rest value : List Char}
      {content : Option Content} {further : Nat} {others : List Piece}
      (stepped : step state c rest = .piece content value further after)
      (later : Yields after (rest.drop further) others final) :
      Yields state (c :: rest) (.make content (c :: rest.take further) value :: others) final

theorem yields_of_pieces {cs : List Char} {position : Position} {ps : List Piece}
    (read : pieces state position cs = (.ok ps, final)) : Yields state cs ps final := by
  fun_induction pieces state position cs generalizing ps final with
  | case1 => cases read; exact .nothing
  | case2 state position c rest comment => cases read; exact .comment comment
  | case3 => cases read
  | case4 state position c rest content value further after stepped source piece following last =>
    rename_i found ih
    obtain ⟨taken, rfl⟩ := Prod.mk.inj read
    obtain ⟨others, later, rfl⟩ := map_eq_ok_iff.mp taken
    rw [later] at found
    exact .piece stepped (ih found)

/-- The tokens of a line are put together from the pieces that it yields. -/
theorem yields_of_readLine {number : Nat} {line : List Char} {tokens : List Token}
    (read : readLine state number line = (.ok tokens, final)) :
    ∃ ps, Yields state line ps final ∧ tokens = assemble ⟨number, 1⟩ (join ps) := by
  obtain ⟨taken, rfl⟩ := Prod.mk.inj read
  obtain ⟨ps, found, rfl⟩ := map_eq_ok_iff.mp taken
  have whole : pieces state ⟨number, 1⟩ line = (.ok ps, (pieces state ⟨number, 1⟩ line).2) := by
    rw [← found]
  exact ⟨ps, yields_of_pieces whole, rfl⟩

/-! Lines -/

theorem step_of_isLineBreak {b : Char} (ends : isLineBreak b) (rest : List Char) :
    step state b rest = .piece none [b] 0 state := by
  have other (c : Char) (inner : isLineBreak c = false) : b ≠ c := by
    rintro rfl
    rw [ends] at inner
    cases inner
  have one := other '$' rfl
  have two := other '\\' rfl
  have three := other '/' rfl
  have four := other '<' rfl
  have five := other '>' rfl
  have six := other '[' rfl
  have seven := other ']' rfl
  have eight := other '"' rfl
  have nine := other '|' rfl
  simp [step, plainStep, one, two, three, four, five, six, seven, eight, nine]

theorem reads_break {p : Piece} (ends : p.IsBreak) (next : Option Char) :
    Reads state p next state := by
  obtain ⟨b, isBreak, rfl⟩ := ends
  exact ⟨b, [], none, [b], rfl, fun rest _ => step_of_isLineBreak isBreak rest⟩

theorem after_break {p : Piece} {next : Option Char} (ends : p.IsBreak)
    (reads : Reads state p next mid) : mid = state := by
  obtain ⟨b, isBreak, rfl⟩ := ends
  obtain ⟨c, more, content, value, same, stepped⟩ := reads
  cases content with
  | some content => cases same
  | none =>
    cases same
    have taken := stepped next.toList (by cases next <;> rfl)
    rw [step_of_isLineBreak isBreak] at taken
    cases taken
    rfl

/-- What follows the end of a line does not matter to the line. -/
theorem Legible.line {ps : List Piece} {p : Piece} {next : Option Char} (ends : p.IsBreak)
    (legible : Legible state (ps ++ [p]) next final) : Legible state (ps ++ [p]) none final := by
  obtain ⟨mid, first, last⟩ := legible_append_iff.mp legible
  have head : headOf [p] none = headOf [p] next := by
    obtain ⟨b, _, rfl⟩ := ends
    rfl
  cases last with
  | cons reads later =>
    cases later
    cases after_break ends reads
    exact Legible.append (head ▸ first) (.cons (reads_break ends _) .nil)

/-- Lines with some characters in front of the first. -/
def prepend (cs : List Char) : List (List Char) → List (List Char)
  | [] => [cs]
  | line :: more => (cs ++ line) :: more

theorem prepend_prepend (cs ds : List Char) (lines : List (List Char)) :
    prepend cs (prepend ds lines) = prepend (cs ++ ds) lines := by
  cases lines <;> simp [prepend]

theorem lines_append {cs rest : List Char} (some : cs ≠ [])
    (inner : ∀ c ∈ cs, isLineBreak c = false) :
    (Line.ofChars (cs ++ rest)).map Line.full = prepend cs ((Line.ofChars rest).map Line.full) := by
  have one (c : Char) (rest : List Char) (here : isLineBreak c = false) :
      (Line.ofChars (c :: rest)).map Line.full =
        prepend [c] ((Line.ofChars rest).map Line.full) := by
    rw [Line.ofChars]
    · rw [here]
      cases Line.ofChars rest <;> simp [Line.consFirst, Line.full, prepend]
    · rintro more rfl
      cases here
  induction cs with
  | nil => exact (some rfl).elim
  | cons c others ih =>
    have here := inner c List.mem_cons_self
    rw [List.cons_append, one _ _ here]
    by_cases none : others = []
    · rw [none, List.nil_append]
    · rw [ih none fun d member => inner d (List.mem_cons_of_mem c member), prepend_prepend,
        List.singleton_append]

theorem lines_break {b : Char} {rest : List Char} (ends : isLineBreak b)
    (single : b ≠ '\r' ∨ rest.head? ≠ some '\n') :
    (Line.ofChars (b :: rest)).map Line.full = [b] :: (Line.ofChars rest).map Line.full := by
  rw [Line.ofChars]
  · simp [ends, Line.full]
  · rintro more rfl rfl
    simp at single

theorem lines_break_pair (rest : List Char) :
    (Line.ofChars ('\r' :: '\n' :: rest)).map Line.full =
      ['\r', '\n'] :: (Line.ofChars rest).map Line.full := by
  rw [Line.ofChars]
  simp [Line.full]

/-- Whether each line but the last has a break at its end. -/
def Broken (lines : List (List Piece)) : Prop :=
  lines.IsChain fun line _ => ∃ front p, line = front ++ [p] ∧ p.IsBreak

theorem broken_cons {line : List Piece} {lines : List (List Piece)}
    (ends : ∃ front p, line = front ++ [p] ∧ p.IsBreak) (broken : Broken lines) :
    Broken (line :: lines) := List.isChain_cons.mpr ⟨fun _ _ => ends, broken⟩

theorem broken_prepend {p : Piece} {line : List Piece} {lines : List (List Piece)}
    (broken : Broken (line :: lines)) : Broken ((p :: line) :: lines) := by
  obtain ⟨first, later⟩ := List.isChain_cons.mp broken
  refine List.isChain_cons.mpr ⟨fun next here => ?_, later⟩
  obtain ⟨front, last, rfl, ends⟩ := first next here
  exact ⟨p :: front, last, rfl, ends⟩

theorem exists_lineFeed {ps : List Piece} (whole : ∀ p ∈ ps, p.Whole)
    (some : ∀ p ∈ ps, p.source ≠ []) (head : (sourceOf ps).head? = .some '\n') :
    ∃ rest, ps = .plain ['\n'] ['\n'] :: rest := by
  cases ps with
  | nil => cases head
  | cons p rest =>
    obtain ⟨c, more, source⟩ := List.exists_cons_of_ne_nil (some p List.mem_cons_self)
    have first : c = '\n' := by simpa [sourceOf, source] using head
    subst first
    rcases whole p List.mem_cons_self with inner | ⟨b, _, rfl⟩
    · have other := inner '\n' (source ▸ List.mem_cons_self)
      cases other
    · cases source
      exact ⟨rest, rfl⟩

/-- The lines of a text are made of whole pieces. -/
theorem exists_lines {ps : List Piece} (whole : ∀ p ∈ ps, p.Whole)
    (some : ∀ p ∈ ps, p.source ≠ []) :
    ∃ lines : List (List Piece), lines.flatten = ps ∧ Broken lines ∧
      (Line.ofChars (sourceOf ps)).map Line.full = lines.map sourceOf := by
  induction length : ps.length using Nat.strongRecOn generalizing ps with
  | ind n ih =>
    cases ps with
    | nil => exact ⟨[], rfl, .nil, rfl⟩
    | cons p rest =>
      rw [List.length_cons] at length
      have wholeRest : ∀ q ∈ rest, q.Whole := fun q member =>
        whole q (List.mem_cons_of_mem p member)
      have someRest : ∀ q ∈ rest, q.source ≠ [] :=
        fun q member => some q (List.mem_cons_of_mem p member)
      have source : sourceOf (p :: rest) = p.source ++ sourceOf rest := rfl
      rcases whole p List.mem_cons_self with inner | ⟨b, isBreak, rfl⟩
      · obtain ⟨lines, rfl, broken, same⟩ := ih rest.length (by omega) wholeRest someRest rfl
        rw [source, lines_append (some p List.mem_cons_self) inner, same]
        cases lines with
        | nil => exact ⟨[[p]], rfl, .singleton _, by simp [prepend, sourceOf]⟩
        | cons line more =>
          exact ⟨(p :: line) :: more, rfl, broken_prepend broken, by simp [prepend, sourceOf]⟩
      · have ends : Piece.IsBreak (.plain [b] [b]) := ⟨b, isBreak, rfl⟩
        by_cases pair : b = '\r' ∧ (sourceOf rest).head? = .some '\n'
        · obtain ⟨rfl, head⟩ := pair
          obtain ⟨others, rfl⟩ := exists_lineFeed wholeRest someRest head
          rw [List.length_cons] at length
          obtain ⟨lines, rfl, broken, same⟩ := ih others.length (by omega)
            (fun q member => wholeRest q (List.mem_cons_of_mem _ member))
            (fun q member => someRest q (List.mem_cons_of_mem _ member)) rfl
          refine ⟨[.plain ['\r'] ['\r'], .plain ['\n'] ['\n']] :: lines, rfl, ?_, ?_⟩
          · exact broken_cons ⟨[_], _, rfl, '\n', rfl, rfl⟩ broken
          · change (Line.ofChars ('\r' :: '\n' :: sourceOf lines.flatten)).map Line.full = _
            rw [lines_break_pair, same]
            rfl
        · obtain ⟨lines, rfl, broken, same⟩ := ih rest.length (by omega) wholeRest someRest rfl
          have single : b ≠ '\r' ∨ (sourceOf lines.flatten).head? ≠ .some '\n' := by
            by_cases cr : b = '\r'
            · exact .inr fun lf => pair ⟨cr, lf⟩
            · exact .inl cr
          refine ⟨[.plain [b] [b]] :: lines, rfl, broken_cons ⟨[], _, rfl, ends⟩ broken, ?_⟩
          rw [source, Piece.source, List.singleton_append, lines_break isBreak single, same]
          rfl

/-! Tokens -/

/-- Whether a stretch of text is as long as it can be: a mark or nothing follows it, or a line ends
with it. -/
def Stops (run rest : List Piece) : Prop :=
  (∀ p ∈ rest.head?, p.isPlain = false) ∨ ∃ front p, run = front ++ [p] ∧ p.IsBreak

/-- How tokens are cut from pieces: marks stand alone, stretches of text are joined. -/
inductive Cut : List Piece → List Token → Prop
  | nil : Cut [] []
  | mark {content : Content} {source : List Char} {position : Position} {rest : List Piece}
      {tokens : List Token} (later : Cut rest tokens) :
      Cut (.mark content source :: rest) (⟨content, String.ofList source, position⟩ :: tokens)
  | text {all run rest : List Piece} {value source : List Char} {position : Position}
      {tokens : List Token} (split : all = run ++ rest) (plain : ∀ p ∈ run, p.isPlain)
      (value_eq : run.flatMap Piece.value = value) (source_eq : sourceOf run = source)
      (some : value ≠ []) (stops : Stops run rest) (later : Cut rest tokens) :
      Cut all (⟨.text (String.ofList value), String.ofList source, position⟩ :: tokens)

/-- Every token is made of one of the pieces. -/
theorem exists_of_assemble {ps : List Piece} {p : Position} {t : Token}
    (member : t ∈ assemble p ps) :
    ∃ q ∈ ps, t.content = q.content ∧ t.source.toList = q.source ∧ t.position.line = p.line := by
  induction ps generalizing p with
  | nil => cases member
  | cons q rest ih =>
    have behind (inside : t ∈ assemble ⟨p.line, p.column + q.source.length⟩ rest) :
        ∃ r ∈ q :: rest, t.content = r.content ∧ t.source.toList = r.source ∧
          t.position.line = p.line := by
      obtain ⟨r, other, same⟩ := ih inside
      exact ⟨r, List.mem_cons_of_mem q other, same⟩
    cases q with
    | mark content source =>
      rcases List.mem_cons.mp member with rfl | inside
      · exact ⟨_, List.mem_cons_self, rfl, String.toList_ofList, rfl⟩
      · exact behind inside
    | plain source value =>
      rw [assemble] at member
      split at member
      · exact behind member
      · rcases List.mem_cons.mp member with rfl | inside
        · exact ⟨_, List.mem_cons_self, rfl, String.toList_ofList, rfl⟩
        · exact behind inside

/-- Whether no stretch of text is without a value. -/
def Filled (ps : List Piece) : Prop := ∀ p ∈ ps, p.isPlain → p.value ≠ []

theorem join_of_mark {ps : List Piece} (first : ∀ p ∈ (join ps).head?, p.isPlain = false) :
    ∀ p ∈ ps.head?, p.isPlain = false := by
  intro p head
  cases ps with
  | nil => cases head
  | cons q rest =>
    cases head
    cases p with
    | mark content source => rfl
    | plain source value =>
      unfold join at first
      split at first <;> cases first _ rfl

/-- Joining makes no marks. -/
theorem mem_of_mem_join {ps : List Piece} {p : Piece} (member : p ∈ join ps)
    (mark : p.isPlain = false) : p ∈ ps := by
  fun_induction join ps with
  | case1 => exact member
  | case2 content source rest ih =>
    rcases List.mem_cons.mp member with rfl | later
    · exact List.mem_cons_self
    · exact List.mem_cons_of_mem _ (ih later)
  | case3 source value rest more others following same ih =>
    rcases List.mem_cons.mp member with rfl | later
    · cases mark
    · rw [same] at ih
      exact List.mem_cons_of_mem _ (ih (List.mem_cons_of_mem _ later))
  | case4 source value rest other ih =>
    rcases List.mem_cons.mp member with rfl | later
    · cases mark
    · exact List.mem_cons_of_mem _ (ih later)

/-- What holds of pieces holds of them when stretches of text are joined, if joining keeps it. -/
theorem forall_join {holds : Piece → Prop} {ps : List Piece}
    (joined : ∀ source value more others, holds (.plain source value) →
      holds (.plain more others) → holds (.plain (source ++ more) (value ++ others)))
    (each : ∀ p ∈ ps, holds p) : ∀ p ∈ join ps, holds p := by
  fun_induction join ps with
  | case1 => exact each
  | case2 content source rest ih =>
    obtain ⟨own, behind⟩ := List.forall_mem_cons.mp each
    exact List.forall_mem_cons.mpr ⟨own, ih behind⟩
  | case3 source value rest more others following same ih =>
    obtain ⟨own, behind⟩ := List.forall_mem_cons.mp each
    rw [same] at ih
    obtain ⟨next, later⟩ := List.forall_mem_cons.mp (ih behind)
    exact List.forall_mem_cons.mpr ⟨joined _ _ _ _ own next, later⟩
  | case4 source value rest other ih =>
    obtain ⟨own, behind⟩ := List.forall_mem_cons.mp each
    exact List.forall_mem_cons.mpr ⟨own, ih behind⟩

theorem value_of_mem_join {ps : List Piece} (filled : Filled ps) : Filled (join ps) :=
  forall_join (fun _ _ _ _ own _ _ => List.append_ne_nil_of_left_ne_nil (own rfl) _) filled

theorem Stops.cons {run rest : List Piece} (p : Piece) (stops : Stops run rest) :
    Stops (p :: run) rest := by
  rcases stops with mark | ⟨front, last, rfl, ends⟩
  · exact .inl mark
  · exact .inr ⟨p :: front, last, rfl, ends⟩

/-- More text in front of a stretch of text belongs to it. -/
theorem Cut.longer (source : List Char) {value more others : List Char} {rest : List Piece}
    (position : Position) {place : Position} {tokens : List Token} (some : value ≠ [])
    (plain : ∀ p ∈ rest.head?, p.isPlain)
    (cut : Cut rest (⟨.text (String.ofList others), String.ofList more, place⟩ :: tokens)) :
    Cut (.plain source value :: rest)
      (⟨.text (String.ofList (value ++ others)), String.ofList (source ++ more), position⟩ ::
        tokens) := by
  generalize first : Token.mk (.text (String.ofList others)) (String.ofList more) place = t at cut
  cases cut with
  | mark later => cases plain _ rfl
  | @text _ run rest value' source' position' tokens split all value_eq source_eq _ stops later =>
    obtain ⟨content, source_same, _⟩ := Token.mk.inj first
    have value_same : others = value' := String.ofList_injective (Content.text.inj content)
    have source_same : more = source' := String.ofList_injective source_same
    subst value_same source_same split
    refine @Cut.text _ (.plain source value :: run) _ _ _ _ _ rfl ?_ ?_ ?_ ?_ (stops.cons _) later
    · intro p member
      rcases List.mem_cons.mp member with rfl | inside
      · rfl
      · exact all p inside
    · rw [List.flatMap_cons, value_eq]
      rfl
    · change source ++ sourceOf run = source ++ more
      rw [source_eq]
    · simp [some]

theorem cut_assemble {ps : List Piece} (filled : Filled ps) (position : Position) :
    Cut ps (assemble position (join ps)) := by
  induction ps generalizing position with
  | nil => exact .nil
  | cons p rest ih =>
    have inner : Filled rest := fun q inside => filled q (List.mem_cons_of_mem p inside)
    have later := ih inner
    cases p with
    | mark content source => exact .mark (later _)
    | plain source value =>
      have some : value ≠ [] := filled _ List.mem_cons_self rfl
      unfold join
      split
      · rename_i more others following joined
        have someOthers : others ≠ [] :=
          value_of_mem_join inner (.plain more others) (joined ▸ List.mem_cons_self) rfl
        have plain : ∀ p ∈ rest.head?, p.isPlain := by
          cases rest with
          | nil => simp
          | cons q _ =>
            cases q with
            | plain => simp [Piece.isPlain]
            | mark => cases joined
        -- plain pieces side by side are one token: the token of the rest grows at its front
        have tail := later ⟨position.line, position.column + source.length⟩
        rw [joined, assemble] at tail
        simp only [List.isEmpty_iff, someOthers, if_false] at tail
        rw [assemble]
        simp only [List.isEmpty_iff, List.append_eq_nil_iff, some, false_and, if_false]
        have tail := Cut.longer source position some plain tail
        simpa [Piece.source, Nat.add_assoc] using tail
      · rename_i other
        have mark : ∀ p ∈ (join rest).head?, p.isPlain = false := by
          intro p head
          cases found : join rest with
          | nil => simp [found] at head
          | cons q following =>
            rw [found] at head
            cases head
            cases p with
            | plain more others => exact (other more others following found).elim
            | mark => rfl
        rw [assemble]
        simp only [List.isEmpty_iff, some, if_false]
        refine @Cut.text _ [.plain source value] _ _ _ _ _ rfl ?_ (by simp [Piece.value])
          (by simp [sourceOf, Piece.source]) some (.inl (join_of_mark mark)) (later _)
        simp [Piece.isPlain]

theorem cut_nil {tokens : List Token} (cut : Cut [] tokens) : tokens = [] := by
  generalize none : ([] : List Piece) = ps at cut
  cases cut with
  | nil => rfl
  | mark => cases none
  | @text _ run rest value _ _ _ split _ value_eq _ some _ _ =>
    have empty := List.append_eq_nil_iff.mp (none.trans split).symm
    rw [empty.1] at value_eq
    exact (some value_eq.symm).elim

theorem Cut.append {ps qs : List Piece} {ts us : List Token} (first : Cut ps ts)
    (second : Cut qs us) (ends : ∀ p ∈ ps.getLast?, p.IsBreak) : Cut (ps ++ qs) (ts ++ us) := by
  induction first with
  | nil => exact second
  | @mark content source position rest tokens later ih =>
    refine .mark (ih fun p last => ends p ?_)
    rw [List.getLast?_cons, last]
    rfl
  | @text all run rest value source position tokens split plain value_eq source_eq some stops later
    ih =>
    subst split
    cases rest with
    | nil =>
      rw [cut_nil later]
      refine @Cut.text _ run qs _ _ _ _ (by simp) plain value_eq source_eq some (.inr ?_) second
      have nonempty : run ≠ [] := by
        rintro rfl
        exact some value_eq.symm
      refine ⟨run.dropLast, run.getLast nonempty, (List.dropLast_append_getLast nonempty).symm, ?_⟩
      exact ends _ (by simp [List.getLast?_eq_some_getLast nonempty])
    | cons q others =>
      have inside := ih fun p last => ends p (by rw [List.getLast?_append, last]; rfl)
      refine .text (List.append_assoc _ _ _) plain value_eq source_eq some ?_ inside
      rcases stops with mark | isBreak
      · exact .inl mark
      · exact .inr isBreak

theorem readEach_of_legible {lines : List (List Piece)} (broken : Broken lines)
    (filled : Filled lines.flatten) (legible : Legible state lines.flatten none final)
    (number : Nat) :
    ∃ tokens : List (List Token),
      readEach state number (lines.map sourceOf) = (tokens.map .ok, final) ∧
      Cut lines.flatten tokens.flatten := by
  induction lines generalizing state number with
  | nil =>
    cases legible
    exact ⟨[], rfl, .nil⟩
  | cons line rest ih =>
    obtain ⟨first, later⟩ := List.isChain_cons.mp broken
    obtain ⟨mid, here, behind⟩ := legible_append_iff.mp legible
    have ends : rest ≠ [] → ∃ front p, line = front ++ [p] ∧ p.IsBreak := by
      intro some
      obtain ⟨next, more, rfl⟩ := List.exists_cons_of_ne_nil some
      exact first next rfl
    have alone : Legible state line none mid := by
      by_cases last : rest = []
      · rw [last] at here
        exact here
      · obtain ⟨front, p, rfl, isBreak⟩ := ends last
        exact here.line isBreak
    have cut : Cut line (assemble ⟨number, 1⟩ (join line)) :=
      cut_assemble (fun p member => filled p (List.mem_append_left _ member)) _
    obtain ⟨tokens, read, cut'⟩ :=
      ih later (fun p member => filled p (List.mem_append_right _ member)) behind (number + 1)
    refine ⟨assemble ⟨number, 1⟩ (join line) :: tokens, ?_, ?_⟩
    · rw [List.map_cons, readEach, readLine, pieces_of_legible alone]
      simp only [Except.map, read, List.map_cons]
    · by_cases last : rest = []
      · subst last
        have none : tokens = [] ∧ mid = final := by simpa [readEach] using read
        rw [none.1]
        simpa using cut
      · obtain ⟨front, p, rfl, isBreak⟩ := ends last
        refine cut.append cut' fun q here => ?_
        rw [List.getLast?_concat] at here
        cases here
        exact isBreak

/-- Text joined in front of a mark and behind it. -/
theorem join_append_mark (ps qs : List Piece) (content : Content) (source : List Char) :
    join (ps ++ .mark content source :: qs) = join ps ++ .mark content source :: join qs := by
  induction ps with
  | nil => rfl
  | cons p rest ih =>
    cases p with
    | mark => rw [List.cons_append, join, ih, join, List.cons_append]
    | plain source value =>
      rw [List.cons_append, join, ih, join]
      cases join rest with
      | nil => rfl
      | cons q others => cases q <;> rfl

theorem assemble_append (ps qs : List Piece) (position : Position) :
    ∃ behind, assemble position (ps ++ qs) = assemble position ps ++ assemble behind qs := by
  induction ps generalizing position with
  | nil => exact ⟨position, rfl⟩
  | cons p rest ih =>
    obtain ⟨behind, later⟩ := ih ⟨position.line, position.column + p.source.length⟩
    refine ⟨behind, ?_⟩
    cases p with
    | mark => simp only [List.cons_append, assemble, later]
    | plain source value =>
      simp only [List.cons_append, assemble, later]
      split <;> rfl

/-- The tokens of a text that has one line. -/
theorem readText_of_flat {cs : List Char} (nonempty : cs ≠ [])
    (flat : ∀ c ∈ cs, isLineBreak c = false) : readText (String.ofList cs) =
      (pieces .initial ⟨1, 1⟩ cs).1.map fun ps => assemble ⟨1, 1⟩ (join ps) := by
  have single : (Line.ofChars cs).map Line.full = [cs] := by
    have lines := @lines_append cs [] nonempty flat
    rwa [List.append_nil] at lines
  rw [readText, String.toList_ofList, single, readLines, readEach, readLine]
  generalize pieces .initial ⟨1, 1⟩ cs = read
  obtain ⟨found, final⟩ := read
  cases found with
  | error e => rfl
  | ok ps => simp [Except.map, readEach]

/-- The tokens of a legible text. -/
theorem readText_of_legible {ps : List Piece} (legible : Legible .initial ps none final)
    (whole : ∀ p ∈ ps, p.Whole) (some : ∀ p ∈ ps, p.source ≠ []) (filled : Filled ps) :
    ∃ tokens, readText (String.ofList (sourceOf ps)) = .ok tokens ∧ Cut ps tokens := by
  obtain ⟨lines, rfl, broken, same⟩ := exists_lines whole some
  obtain ⟨tokens, read, cut⟩ := readEach_of_legible broken filled legible 1
  refine ⟨tokens.flatten, ?_, cut⟩
  have all : (tokens.map (Except.ok : List Token → Except ScriptError _)).mapM id = .ok tokens :=
    mapM_id_eq_ok_iff.mpr rfl
  rw [readText, String.toList_ofList, same, readLines, read]
  dsimp only
  rw [all]
  rfl

end Parley.Tokenizer
