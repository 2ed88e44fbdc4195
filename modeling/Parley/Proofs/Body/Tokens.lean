import Parley.Proofs.Body.Expressions

/-!
What holds of the tokens of every text: the variables in them have names, and no line ends between
quotes.
-/
namespace Parley

namespace Template

/-- Whether all variables in a template have names. -/
def Named (t : Template) : Prop := ∀ name, .var name ∈ t.atoms → isName name.toList

/-- Whether a template can stand between quotes, for all that is known of its atoms one by one. -/
structure Framed (t : Template) : Prop where
  named : t.Named
  flat : ∀ c, .char c ∈ t.atoms → isLineBreak c = false

theorem framed_empty : empty.Framed := by
  constructor
  · intro name member
    cases member
  · intro c member
    cases member

end Template

/-- Whether a content is what can be found in a text. -/
def Content.Fit : Content → Prop
  | .var name => isName name.toList
  | .quoted value => value.Framed
  | _ => True

def Token.Fit (t : Token) : Prop := t.content.Fit

/-- Whether no line ends in front of a quote. -/
def QuotesFirst (cs : List Char) : Prop := cs.Pairwise fun c d => isLineBreak c → d ≠ '"'

/-- A line has its breaks at its end. -/
theorem Line.flat_ofChars (cs : List Char) : ∀ line ∈ Line.ofChars cs,
    (∀ c ∈ line.content, isLineBreak c = false) ∧ ∀ c ∈ line.ending, isLineBreak c := by
  fun_induction Line.ofChars cs with
  | case1 => simp
  | case2 rest ih =>
    intro line member
    rcases List.mem_cons.mp member with rfl | later
    · exact ⟨by simp, by decide⟩
    · exact ih line later
  | case3 c rest _ ends ih =>
    intro line member
    rcases List.mem_cons.mp member with rfl | later
    · exact ⟨by simp, by simpa using ends⟩
    · exact ih line later
  | case4 c rest _ inner ih =>
    intro line member
    generalize ofChars rest = lines at ih member
    cases lines with
    | nil =>
      rw [List.mem_singleton.mp member]
      exact ⟨by simpa using inner, by simp⟩
    | cons first others =>
      rcases List.mem_cons.mp member with rfl | later
      · obtain ⟨content, ending⟩ := ih first List.mem_cons_self
        refine ⟨fun d inside => ?_, ending⟩
        rcases List.mem_cons.mp inside with rfl | inside
        · simpa using inner
        · exact content d inside
      · exact ih line (List.mem_cons_of_mem first later)

theorem quotesFirst_append {content ending : List Char}
    (flat : ∀ c ∈ content, isLineBreak c = false) (breaks : ∀ c ∈ ending, isLineBreak c) :
    QuotesFirst (content ++ ending) := by
  refine List.pairwise_append.mpr ⟨?_, ?_, ?_⟩
  · refine List.pairwise_of_forall_mem_list fun c inside d _ ends => ?_
    rw [flat c inside] at ends
    cases ends
  · refine List.pairwise_of_forall_mem_list fun c _ d inside _ same => ?_
    have ends := breaks d inside
    rw [same] at ends
    cases ends
  · intro c inside d _ ends
    rw [flat c inside] at ends
    cases ends

namespace Tokenizer

theorem isName_nameAt {cs : List Char} (some : nameAt cs ≠ []) : isName (nameAt cs) := by
  obtain ⟨name, rest, _, same, named, _⟩ := exists_nameAt some
  rwa [same]

/-- Whether the parts of a quoted text have named variables and no end of a line. -/
def Framing (parts : List Part) : Prop :=
  (∀ name, .var name ∈ parts.flatMap Part.atoms → isName name.toList) ∧
    ∀ c, .char c ∈ parts.flatMap Part.atoms → isLineBreak c = false

theorem framing_char {c : Char} {parts : List Part} (inner : isLineBreak c = false)
    (framing : Framing parts) : Framing (.literal (String.ofList [c]) :: parts) := by
  obtain ⟨named, flat⟩ := framing
  constructor
  · intro name member
    rcases List.mem_append.mp member with here | later
    · simp [Part.atoms] at here
    · exact named name later
  · intro d member
    rcases List.mem_append.mp member with here | later
    · obtain rfl : d = c := by simpa [Part.atoms] using here
      exact inner
    · exact flat d later

theorem framing_var {name : List Char} {parts : List Part} (isName : isName name)
    (framing : Framing parts) : Framing (.var (String.ofList name) :: parts) := by
  obtain ⟨named, flat⟩ := framing
  constructor
  · intro other member
    rcases List.mem_append.mp member with here | later
    · obtain rfl : other = String.ofList name := by simpa [Part.atoms] using here
      rwa [String.toList_ofList]
    · exact named other later
  · intro d member
    rcases List.mem_append.mp member with here | later
    · simp [Part.atoms] at here
    · exact flat d later

/-- Between quotes, variables have names and no line ends. -/
theorem framing_quotedParts {cs : List Char} {parts : List Part} {n : Nat}
    (read : quotedParts? cs = some (parts, n)) (first : QuotesFirst cs) :
    '"' ∈ cs ∧ Framing parts := by
  -- a quote is still to come, so no character in front of it ends the line
  have inner {c : Char} {rest : List Char} (first : QuotesFirst (c :: rest)) (closed : '"' ∈ rest) :
      isLineBreak c = false :=
    Bool.eq_false_iff.mpr fun ends => (List.pairwise_cons.mp first).1 '"' closed ends rfl
  have tail {c : Char} {rest : List Char} (first : QuotesFirst (c :: rest)) : QuotesFirst rest :=
    (List.pairwise_cons.mp first).2
  fun_induction quotedParts? cs generalizing parts n with
  | case1 => cases read
  | case2 rest =>
    cases read
    exact ⟨List.mem_cons_self, by simp, by simp⟩
  | case3 => cases read
  | case4 c rest ih =>
    obtain ⟨⟨more, k⟩, found, same⟩ := Option.map_eq_some_iff.mp read
    cases same
    obtain ⟨closed, framing⟩ := ih found (tail (tail first))
    exact ⟨List.mem_cons_of_mem _ (List.mem_cons_of_mem _ closed),
      framing_char (inner (tail first) closed) framing⟩
  | case5 rest name none =>
    rename_i ih
    obtain ⟨⟨more, k⟩, found, same⟩ := Option.map_eq_some_iff.mp read
    cases same
    obtain ⟨closed, framing⟩ := ih found (tail first)
    exact ⟨List.mem_cons_of_mem _ closed, framing_char (c := '$') rfl framing⟩
  | case6 rest name some =>
    rename_i ih
    obtain ⟨⟨more, k⟩, found, same⟩ := Option.map_eq_some_iff.mp read
    cases same
    obtain ⟨closed, framing⟩ := ih found ((tail first).drop)
    exact ⟨List.mem_cons_of_mem _ (List.mem_of_mem_drop closed),
      framing_var (isName_nameAt (mt List.isEmpty_iff.mpr some)) framing⟩
  | case7 c rest _ _ _ _ ih =>
    obtain ⟨⟨more, k⟩, found, same⟩ := Option.map_eq_some_iff.mp read
    cases same
    obtain ⟨closed, framing⟩ := ih found (tail first)
    exact ⟨List.mem_cons_of_mem _ closed, framing_char (inner first closed) framing⟩

variable {state final : Tokenizer}

/-- Whether a piece is one of a text. -/
def Piece.Fit : Piece → Prop
  | plain .. => True
  | mark content _ => content.Fit

theorem fit_of_step {c : Char} {rest : List Char} {content : Content} {value : List Char}
    {further : Nat} (stepped : step state c rest = .piece (some content) value further final)
    (first : QuotesFirst rest) : content.Fit := by
  cases finds_of_step stepped with
  | var named =>
    change isName _
    rw [String.toList_ofList]
    exact isName_nameAt named
  | quoted _ read =>
    have framing := (framing_quotedParts read first).2
    constructor
    · intro name member
      rw [Template.atoms_ofParts] at member
      exact framing.1 name member
    · intro d member
      rw [Template.atoms_ofParts] at member
      exact framing.2 d member
  | _ => trivial

theorem fit_of_yields {cs : List Char} {ps : List Piece} (read : Yields state cs ps final)
    (first : QuotesFirst cs) : ∀ p ∈ ps, p.Fit := by
  induction read with
  | nothing => simp
  | comment => simp
  | @piece state after final c rest value content further others stepped _ ih =>
    have behind := (List.pairwise_cons.mp first).2
    refine List.forall_mem_cons.mpr ⟨?_, ih behind.drop⟩
    cases content with
    | none => trivial
    | some content => exact fit_of_step stepped behind

theorem fit_of_assemble {ps : List Piece} (fit : ∀ p ∈ ps, p.Fit) (position : Position) :
    ∀ t ∈ assemble position ps, t.Fit := by
  intro t member
  obtain ⟨p, inside, content, -, -⟩ := exists_of_assemble member
  rw [Token.Fit, content]
  cases p with
  | plain source value => trivial
  | mark content source => exact fit _ inside

theorem fit_of_readLine {number : Nat} {line : List Char} {tokens : List Token}
    (read : readLine state number line = (.ok tokens, final)) (first : QuotesFirst line) :
    ∀ t ∈ tokens, t.Fit := by
  obtain ⟨ps, whole, rfl⟩ := yields_of_readLine read
  exact fit_of_assemble (forall_join (fun _ _ _ _ _ _ => trivial) (fit_of_yields whole first)) _

theorem fit_of_readEach {number : Nat} {lines : List (List Char)}
    (first : ∀ line ∈ lines, QuotesFirst line) :
    ∀ tokens, .ok tokens ∈ (readEach state number lines).1 → ∀ t ∈ tokens, t.Fit := by
  induction lines generalizing state number with
  | nil => simp [readEach]
  | cons line rest ih =>
    intro tokens member
    rw [readEach] at member
    split at member
    · simp at member
    · rename_i found after read
      rcases List.mem_cons.mp member with same | later
      · cases same
        exact fit_of_readLine read (first line List.mem_cons_self)
      · exact ih (fun other inside => first other (List.mem_cons_of_mem line inside)) tokens later

/-- The variables in the tokens of some lines have names, and no line ends between quotes. -/
theorem fit_of_readLines {number : Nat} {lines : List (List Char)} {tokens : List Token}
    (first : ∀ line ∈ lines, QuotesFirst line)
    (read : (readLines state number lines).1 = .ok tokens) : ∀ t ∈ tokens, t.Fit := by
  obtain ⟨each, found, rfl⟩ := map_eq_ok_iff.mp read
  intro t member
  obtain ⟨line, inside, here⟩ := List.mem_flatten.mp member
  have read : .ok line ∈ (readEach state number lines).1 := by
    rw [mapM_id_eq_ok_iff.mp found]
    exact List.mem_map_of_mem inside
  exact fit_of_readEach first line read t here

theorem fit_of_readText {text : String} {tokens : List Token} (read : readText text = .ok tokens) :
    ∀ t ∈ tokens, t.Fit := by
  refine fit_of_readLines (fun line member => ?_) read
  obtain ⟨l, inside, rfl⟩ := List.mem_map.mp member
  obtain ⟨flat, breaks⟩ := Line.flat_ofChars _ l inside
  exact quotesFirst_append flat breaks

end Tokenizer
end Parley
