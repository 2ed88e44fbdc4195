import Parley.Body.Parser
import Parley.Body.Printer
import Parley.Proofs.Body.Quoting

/-!
The pieces of commands, and what is read of a command whose tokens are cut from them: its name, the
expression behind the name or the attributes.
-/
namespace Parley

open Numeral

namespace Tokenizer

/-- Whether a piece can stand inside a command. -/
structure Piece.Inside (p : Piece) : Prop where
  flat : ∀ c ∈ p.source, isLineBreak c = false
  some : p.source ≠ []
  filled : p.isPlain → p.value ≠ []
  inner : ∀ kind, kind ≠ .var → kind ≠ .quoted → p.hasKind kind = false

/-- Whether a piece can stand in a script. -/
structure Piece.Sound (p : Piece) : Prop where
  whole : p.Whole
  some : p.source ≠ []
  filled : p.isPlain → p.value ≠ []

theorem Piece.Inside.sound {p : Piece} (inside : p.Inside) : p.Sound :=
  ⟨.inl inside.flat, inside.some, inside.filled⟩

theorem Piece.Inside.not_break {p : Piece} (inside : p.Inside) : ¬p.IsBreak := by
  rintro ⟨b, ends, rfl⟩
  have inner := inside.flat b (by simp [Piece.source])
  rw [ends] at inner
  cases inner

/-- Characters that stand for themselves. -/
def plainPieces (cs : List Char) : List Piece := cs.map fun c => .plain [c] [c]

@[simp] theorem sourceOf_plain (cs : List Char) : sourceOf (plainPieces cs) = cs := by
  simp [sourceOf, plainPieces, List.flatMap_map, Piece.source]

@[simp] theorem value_plain (cs : List Char) : (plainPieces cs).flatMap Piece.value = cs := by
  simp [plainPieces, List.flatMap_map, Piece.value]

@[simp] theorem sourceOf_append (ps qs : List Piece) :
    sourceOf (ps ++ qs) = sourceOf ps ++ sourceOf qs := List.flatMap_append

@[simp] theorem sourceOf_cons (p : Piece) (ps : List Piece) :
    sourceOf (p :: ps) = p.source ++ sourceOf ps := rfl

@[simp] theorem sourceOf_nil : sourceOf [] = [] := rfl

@[simp] theorem plainPieces_append (cs ds : List Char) :
    plainPieces (cs ++ ds) = plainPieces cs ++ plainPieces ds := List.map_append

theorem inside_plain {cs : List Char} (flat : ∀ c ∈ cs, isLineBreak c = false) :
    ∀ p ∈ plainPieces cs, p.Inside := by
  intro p member
  obtain ⟨c, here, rfl⟩ := List.mem_map.mp member
  have same : ∀ d ∈ [c], isLineBreak d = false := by
    intro d inside
    rw [List.mem_singleton.mp inside]
    exact flat c here
  exact ⟨same, List.cons_ne_nil _ _, fun _ => List.cons_ne_nil _ _, fun _ _ _ => rfl⟩

/-- Whether a character stands for itself wherever it stands in a command. -/
def isInner (c : Char) : Bool :=
  c != '$' && c != '\\' && c != '"' && c != '/' && c != '<' && c != '>'

variable {inReply : Bool}

/-- A character that starts no variable, escape or quoted value stands for itself unless it is one
of two that make a marker or a comment. -/
theorem reads_single {c : Char} {next : Option Char} (dollar : c ≠ '$') (backslash : c ≠ '\\')
    (quote : c ≠ '"') (apart : c = '/' ∨ c = '<' ∨ c = '>' → next ≠ some c) :
    Reads ⟨true, inReply⟩ (.plain [c] [c]) next ⟨true, inReply⟩ :=
  reads_ordinary ⟨dollar, backslash, fun same => same ▸ apart (.inl same),
    fun same => same ▸ apart (.inr (.inl same)), fun same => same ▸ apart (.inr (.inr same)),
    nofun, fun _ => quote⟩

theorem reads_inner {c : Char} (inner : isInner c) (next : Option Char) :
    Reads ⟨true, inReply⟩ (.plain [c] [c]) next ⟨true, inReply⟩ := by
  simp only [isInner, Bool.and_eq_true, bne_iff_ne] at inner
  obtain ⟨⟨⟨⟨⟨dollar, backslash⟩, quote⟩, slash⟩, opening⟩, closing⟩ := inner
  refine reads_single dollar backslash quote ?_
  rintro (same | same | same)
  · exact (slash same).elim
  · exact (opening same).elim
  · exact (closing same).elim

theorem legible_inner {cs : List Char} (inner : ∀ c ∈ cs, isInner c) (next : Option Char) :
    Legible ⟨true, inReply⟩ (plainPieces cs) next ⟨true, inReply⟩ := by
  induction cs with
  | nil => exact .nil
  | cons c rest ih =>
    exact .cons (reads_inner (inner c List.mem_cons_self) _)
      (ih fun d member => inner d (List.mem_cons_of_mem c member))

/-- The characters from the blank to `~` end no line. -/
theorem isLineBreak_of_printed {c : Char} (least : 0x20 ≤ c.toNat) (most : c.toNat ≤ 0x7e) :
    isLineBreak c = false := by
  simp only [isLineBreak, Bool.or_eq_false_iff, Bool.and_eq_false_iff, decide_eq_false_iff_not,
    beq_eq_false_iff_ne]
  omega

theorem isNameChar_iff {c : Char} : isNameChar c ↔ isNameStart c ∨ isPlainDigit c := by
  rw [isNameChar, Bool.or_eq_true]
  rfl

theorem isLineBreak_of_isNameChar {c : Char} (name : isNameChar c) : isLineBreak c = false := by
  rcases isNameChar_iff.mp name with start | digit
  · rcases isNameStart_iff.mp start with rfl | small | capital
    · rfl
    · exact isLineBreak_of_printed (by omega) (by omega)
    · exact isLineBreak_of_printed (by omega) (by omega)
  · have range := isPlainDigit_iff.mp digit
    exact isLineBreak_of_printed (by omega) (by omega)

theorem isBlank_of_isNameChar {c : Char} (name : isNameChar c) : isBlank c = false := by
  rcases isNameChar_iff.mp name with start | digit
  · exact Terminal.isBlank_of_isNameStart start
  · have range := isPlainDigit_iff.mp digit
    exact isBlank_of_printed (by omega) (by omega)

theorem isInner_of_isNameChar {c : Char} (name : isNameChar c) : isInner c := by
  simp only [isInner, Bool.and_eq_true, bne_iff_ne]
  refine ⟨⟨⟨⟨⟨?_, ?_⟩, ?_⟩, ?_⟩, ?_⟩, ?_⟩ <;>
    · rintro rfl
      cases name

/-! Markers -/

theorem reads_commandStart (next : Option Char) :
    Reads ⟨false, inReply⟩ (.mark .commandStart ['<', '<']) next ⟨true, inReply⟩ := by
  refine ⟨'<', ['<'], some .commandStart, [], rfl, fun rest _ => ?_⟩
  simp [step, markStep]

theorem reads_commandEnd (next : Option Char) :
    Reads ⟨true, inReply⟩ (.mark .commandEnd ['>', '>']) next ⟨false, inReply⟩ := by
  refine ⟨'>', ['>'], some .commandEnd, [], rfl, fun rest _ => ?_⟩
  simp [step, markStep]

theorem reads_replyStart (next : Option Char) :
    Reads ⟨false, false⟩ (.mark .replyStart ['[', '[']) next ⟨false, true⟩ := by
  refine ⟨'[', ['['], some .replyStart, [], rfl, fun rest _ => ?_⟩
  simp [step, markStep]

theorem reads_replyEnd (next : Option Char) :
    Reads ⟨false, true⟩ (.mark .replyEnd [']', ']']) next ⟨false, false⟩ := by
  refine ⟨']', [']'], some .replyEnd, [], rfl, fun rest _ => ?_⟩
  simp [step, markStep]

theorem reads_separator (next : Option Char) :
    Reads ⟨false, true⟩ (.mark .separator ['|']) next ⟨false, true⟩ := by
  refine ⟨'|', [], some .separator, [], rfl, fun rest _ => ?_⟩
  simp [step, markStep]

/-! Commands -/

/-- Pieces between the markers of a command. -/
def enclose (inner : List Piece) : List Piece :=
  .mark .commandStart ['<', '<'] :: (inner ++ [.mark .commandEnd ['>', '>']])

/-- Whether pieces can be the inner ones of a command. -/
structure Encloses (inner : List Piece) : Prop where
  inside : ∀ p ∈ inner, p.Inside
  legible : ∀ inReply, Legible ⟨true, inReply⟩ inner (some '>') ⟨true, inReply⟩

variable {inner : List Piece}

theorem legible_enclosed (legible : Legible ⟨true, inReply⟩ inner (some '>') ⟨true, inReply⟩)
    (next : Option Char) : Legible ⟨false, inReply⟩ (enclose inner) next ⟨false, inReply⟩ :=
  .cons (reads_commandStart _) (Legible.append legible (.cons (reads_commandEnd _) .nil))

theorem Encloses.legible_enclose (encloses : Encloses inner) (next : Option Char) :
    Legible ⟨false, inReply⟩ (enclose inner) next ⟨false, inReply⟩ :=
  legible_enclosed (encloses.legible inReply) next

theorem sound_mark {content : Content} {source : List Char} (some : source ≠ [])
    (flat : ∀ c ∈ source, isLineBreak c = false) : (Piece.mark content source).Sound :=
  ⟨.inl flat, some, nofun⟩

theorem sound_enclosed (sound : ∀ p ∈ inner, p.Sound) : ∀ p ∈ enclose inner, p.Sound := by
  intro p member
  rcases List.mem_cons.mp member with rfl | member
  · exact sound_mark (by decide) (by decide)
  · rcases List.mem_append.mp member with inside | last
    · exact sound p inside
    · rw [List.mem_singleton.mp last]
      exact sound_mark (by decide) (by decide)

theorem Encloses.sound (encloses : Encloses inner) : ∀ p ∈ enclose inner, p.Sound :=
  sound_enclosed fun p member => (encloses.inside p member).sound

theorem Encloses.no_end (encloses : Encloses inner) :
    ∀ p ∈ inner, p.hasKind .commandEnd = false :=
  fun p member => (encloses.inside p member).inner _ (by decide) (by decide)

theorem Encloses.append {front : List Char} (flat : ∀ c ∈ front, isLineBreak c = false)
    (plain : ∀ c ∈ front, isInner c) (encloses : Encloses inner) :
    Encloses (plainPieces front ++ inner) := by
  constructor
  · intro p member
    rcases List.mem_append.mp member with here | behind
    · exact inside_plain flat p here
    · exact encloses.inside p behind
  · exact fun inReply => (legible_inner plain _).append (encloses.legible inReply)

theorem encloses_nil : Encloses [] := ⟨by simp, fun _ => .nil⟩

/-- The tokens of a text have its characters. -/
theorem source_of_cut {ps : List Piece} {tokens : List Token} (cut : Cut ps tokens) :
    tokens.flatMap (·.source.toList) = sourceOf ps := by
  induction cut with
  | nil => rfl
  | mark later ih => simp [ih, Piece.source]
  | text split _ _ source_eq _ _ later ih =>
    subst split
    simp [ih, source_eq]

theorem isPlain_of_mem_plain {cs : List Char} : ∀ p ∈ plainPieces cs, p.isPlain := by
  intro p member
  obtain ⟨c, _, rfl⟩ := List.mem_map.mp member
  rfl

/-- A command that starts with some characters has them at the start of its first token. -/
theorem cut_front {cs : List Char} {ps : List Piece} {tokens : List Token} (some : cs ≠ [])
    (inside : ∀ p ∈ plainPieces cs ++ ps, p.Inside) (cut : Cut (plainPieces cs ++ ps) tokens) :
    ∃ more rest position behind, ps = more ++ rest ∧ (∀ p ∈ more, p.isPlain) ∧
      (∀ p ∈ rest.head?, p.isPlain = false) ∧ Cut rest behind ∧
        tokens = ⟨.text (String.ofList (cs ++ more.flatMap Piece.value)),
          String.ofList (cs ++ sourceOf more), position⟩ :: behind := by
  have split : ps = ps.takeWhile Piece.isPlain ++ ps.dropWhile Piece.isPlain :=
    List.takeWhile_append_dropWhile.symm
  have plain : ∀ p ∈ plainPieces cs ++ ps.takeWhile Piece.isPlain, p.isPlain := by
    intro p member
    rcases List.mem_append.mp member with here | later
    · exact isPlain_of_mem_plain p here
    · exact List.all_eq_true.mp List.all_takeWhile p later
  have inner : ∀ p ∈ plainPieces cs ++ ps.takeWhile Piece.isPlain, p.Inside := by
    intro p member
    refine inside p ?_
    rcases List.mem_append.mp member with here | later
    · exact List.mem_append_left _ here
    · exact List.mem_append_right _ ((List.takeWhile_prefix _).subset later)
  have stops : ∀ p ∈ (ps.dropWhile Piece.isPlain).head?, p.isPlain = false := by
    intro p head
    have stop := List.head?_dropWhile_not Piece.isPlain ps
    rw [head] at stop
    simpa using stop
  have cut' := cut
  rw [split, ← List.append_assoc] at cut'
  obtain ⟨position, behind, rfl, later⟩ := cut_run (by simp [some]) plain
    (fun p member => (inner p member).not_break) stops cut'
  refine ⟨ps.takeWhile Piece.isPlain, ps.dropWhile Piece.isPlain, position, behind, split, ?_,
    stops, later, ?_⟩
  · exact fun p member => plain p (List.mem_append_right _ member)
  · rw [List.flatMap_append, value_plain, sourceOf_append, sourceOf_plain]

end Tokenizer

theorem Token.skipBlank_text {cs : List Char} {source : String} {position : Position}
    {rest : List Token} (filled : cs.all Parley.isBlank = false) :
    skipBlank (⟨.text (String.ofList cs), source, position⟩ :: rest) =
      ⟨.text (String.ofList cs), source, position⟩ :: rest := by
  refine List.dropWhile_cons_of_neg ?_
  simp only [isBlank, isBlankText, String.toList_ofList, filled]
  decide

open Tokenizer

namespace Enclosed

variable {name : String} {inner : List Piece} {tokens : List Token} {start stop : Position}

/-- The name of a command is what its first token starts with. -/
theorem named_of_text {value more : List Char} {position : Position} {rest : List Token}
    (isName : isName name.toList) (stops : ∀ d ∈ more.head?, isBlank d) (stop : Option Position) :
    let t : Token := ⟨.text (String.ofList (name.toList ++ value)),
      String.ofList (name.toList ++ more), position⟩
    (⟨start, t :: rest, stop⟩ : Enclosed).named = .ok (name, t, ⟨start, t :: rest, stop⟩) := by
  obtain ⟨c, others, chars, _, all⟩ := isName_iff.mp isName
  have filled : ∀ d ∈ name.toList, isBlank d = false :=
    fun d member => isBlank_of_isNameChar (all d member)
  have first : isBlank c = false := filled c (by simp [chars])
  have whole : (name.toList ++ value).all isBlank = false := by
    rw [chars, List.cons_append, List.all_cons, first, Bool.false_and]
  have word : (firstWord (name.toList ++ more)).1 = name.toList := by
    have start : (name.toList ++ more).dropWhile isBlank = name.toList ++ more := by
      rw [chars, List.cons_append, List.dropWhile_cons_of_neg (by simp [first])]
    rw [firstWord, start]
    exact takeWhile_append_of_stop (fun d member => by simp [filled d member])
      fun d head => by simp [stops d head]
  unfold Enclosed.named
  dsimp only
  rw [Token.skipBlank_text whole]
  simp only [String.toList_ofList, word, String.ofList_toList]

/-- The name of a command is what it starts with. -/
theorem named_of_cut (isName : isName name.toList)
    (blank : ∀ p ∈ inner.head?, p = .plain [' '] [' '])
    (inside : ∀ p ∈ plainPieces name.toList ++ inner, p.Inside)
    (cut : Cut (plainPieces name.toList ++ inner) tokens) (stop : Option Position) :
    ∃ t, (⟨start, tokens, stop⟩ : Enclosed).named = .ok (name, t, ⟨start, tokens, stop⟩) := by
  obtain ⟨c, others, chars, _, _⟩ := isName_iff.mp isName
  obtain ⟨more, rest, position, behind, rfl, _, _, _, rfl⟩ :=
    cut_front (chars ▸ List.cons_ne_nil _ _) inside cut
  have stops : ∀ d ∈ (sourceOf more).head?, isBlank d = true := by
    cases more with
    | nil => simp
    | cons p others =>
      rw [blank p rfl]
      intro d head
      cases head
      rfl
  exact ⟨_, named_of_text isName stops stop⟩

end Enclosed
end Parley
