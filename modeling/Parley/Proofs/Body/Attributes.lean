import Parley.Proofs.Body.Expressions

/-!
Attributes in commands: the pieces that are written of some attributes, and how a name and a list of
values are read back.
-/
namespace Parley

/-- Whether a template is read again from what is written of it between quotes. -/
structure Template.Quotable (t : Template) : Prop where
  readable : Atom.Readable t.atoms
  flat : ∀ c, .char c ∈ t.atoms → isLineBreak c = false

namespace Tokenizer

theorem flat_quotedSource {as : List Atom} (readable : Atom.Readable as)
    (flat : ∀ c, .char c ∈ as → isLineBreak c = false) :
    ∀ c ∈ quotedSource as, isLineBreak c = false := by
  induction as with
  | nil => simp [quotedSource]
  | cons a rest ih =>
    have later := ih readable.tail fun c member => flat c (List.mem_cons_of_mem a member)
    cases a with
    | var name =>
      obtain ⟨_, _, _, _, all⟩ := isName_iff.mp (readable.named name List.mem_cons_self)
      intro c member
      simp only [quotedSource, List.mem_cons, List.mem_append] at member
      rcases member with rfl | inside | behind
      · rfl
      · exact isLineBreak_of_isNameChar (all c inside)
      · exact later c behind
    | char d =>
      have here := flat d List.mem_cons_self
      intro c member
      rw [quotedSource] at member
      split at member
      · simp only [List.mem_cons] at member
        rcases member with rfl | rfl | behind
        · rfl
        · exact here
        · exact later c behind
      · rcases List.mem_cons.mp member with rfl | behind
        · exact here
        · exact later c behind

theorem inside_quoted {t : Template} (quotable : t.Quotable) : (quotedPiece t).Inside := by
  refine ⟨?_, List.cons_ne_nil _ _, nofun, fun kind _ other => beq_eq_false_iff_ne.mpr other.symm⟩
  have flat := flat_quotedSource quotable.readable quotable.flat
  rw [quotedSource_atoms] at flat
  intro c member
  simp only [quotedPiece, Piece.source, List.mem_cons, List.mem_append, List.not_mem_nil,
    or_false] at member
  rcases member with rfl | inside | rfl
  · rfl
  · exact flat c inside
  · rfl

/-- The pieces of some attributes. -/
def attributePieces : List (String × Template) → List Piece
  | [] => []
  | (name, t) :: rest =>
      plainPieces (' ' :: (name.toList ++ ['='])) ++ quotedPiece t :: attributePieces rest

theorem sourceOf_attributes (attributes : List (String × Template)) :
    sourceOf (attributePieces attributes) =
      (String.join (attributes.map parameterText)).toList := by
  induction attributes with
  | nil => rfl
  | cons p rest ih =>
    obtain ⟨name, t⟩ := p
    simp [attributePieces, ih, parameterText, Input.attributeText, quotedPiece, Piece.source,
      List.append_assoc]

end Tokenizer

/-- Whether attributes are read again from what is written of them. -/
structure Attributes.Sound (attributes : List (String × Template)) : Prop where
  named : ∀ p ∈ attributes, isName p.1.toList
  quotable : ∀ p ∈ attributes, p.2.Quotable
  single : (attributes.map (·.1)).Nodup

theorem Attributes.Sound.tail {p : String × Template} {attributes : List (String × Template)}
    (sound : Attributes.Sound (p :: attributes)) : Attributes.Sound attributes :=
  ⟨fun q member => sound.named q (List.mem_cons_of_mem p member),
    fun q member => sound.quotable q (List.mem_cons_of_mem p member),
    (List.nodup_cons.mp sound.single).2⟩

namespace Tokenizer

theorem isInner_of_attribute {name : List Char} (named : isName name) :
    ∀ c ∈ ' ' :: (name ++ ['=']), isInner c ∧ isLineBreak c = false := by
  obtain ⟨_, _, _, _, all⟩ := isName_iff.mp named
  intro c member
  simp only [List.mem_cons, List.mem_append, List.not_mem_nil, or_false] at member
  rcases member with rfl | inside | rfl
  · decide
  · exact ⟨isInner_of_isNameChar (all c inside), isLineBreak_of_isNameChar (all c inside)⟩
  · decide

theorem encloses_attributes {attributes : List (String × Template)}
    (sound : Attributes.Sound attributes) : Encloses (attributePieces attributes) := by
  induction attributes with
  | nil => exact encloses_nil
  | cons p rest ih =>
    obtain ⟨name, t⟩ := p
    have later := ih sound.tail
    have quotable := sound.quotable _ List.mem_cons_self
    have front := isInner_of_attribute (sound.named _ List.mem_cons_self)
    refine .append (fun c member => (front c member).2) (fun c member => (front c member).1)
      ⟨?_, ?_⟩
    · intro p member
      rcases List.mem_cons.mp member with rfl | behind
      · exact inside_quoted quotable
      · exact later.inside p behind
    · exact fun inReply => .cons (reads_quoted rfl quotable.readable) (later.legible inReply)

end Tokenizer

/-! Stripping -/

theorem dropWhile_of_filled {cs : List Char} (filled : ∀ c ∈ cs, isBlank c = false) :
    cs.dropWhile isBlank = cs := by
  cases cs with
  | nil => rfl
  | cons c rest => exact List.dropWhile_cons_of_neg (by simp [filled c List.mem_cons_self])

theorem stripChars_of_filled {cs : List Char} (filled : ∀ c ∈ cs, isBlank c = false) :
    stripChars cs = cs := by
  rw [stripChars, dropWhile_of_filled filled, dropEnd,
    dropWhile_of_filled fun c member => filled c (List.mem_reverse.mp member), List.reverse_reverse]

theorem firstWord_alone {word : List Char} (filled : ∀ c ∈ word, isBlank c = false) :
    firstWord word = (word, []) := by
  have letters : ∀ c ∈ word, (!isBlank c) = true := fun c member => by rw [filled c member]; rfl
  have taken : word.takeWhile (!isBlank ·) = word := List.takeWhile_eq_self_iff.mpr letters
  have none : word.dropWhile (!isBlank ·) = [] := List.dropWhile_eq_nil_iff.mpr letters
  simp only [firstWord, dropWhile_of_filled filled, taken, none]
  rfl

namespace Attributes

open Tokenizer

theorem nameIn_written {name : String} (named : isName name.toList) (position : Position) :
    nameIn (name.toList ++ ['=']) position = .ok name := by
  obtain ⟨_, _, _, _, all⟩ := isName_iff.mp named
  have inner : ∀ c ∈ name.toList, (c != '=') = true := by
    intro c member
    rw [bne_iff_ne]
    rintro rfl
    cases all _ member
  have before : (name.toList ++ ['=']).takeWhile (· != '=') = name.toList :=
    takeWhile_append_of_stop inner (by simp)
  have after : (name.toList ++ ['=']).dropWhile (· != '=') = ['='] :=
    dropWhile_append_of_stop inner (by simp)
  have stripped := stripChars_of_filled fun c member => isBlank_of_isNameChar (all c member)
  unfold nameIn atEquals
  simp [before, after, stripped, named]

/-- Whether attributes have some names and values, in this order. -/
def Lists (entries : List (String × Attribute)) (attributes : List (String × Template)) : Prop :=
  entries.map (fun entry => (entry.1, entry.2.value)) = attributes

end Attributes
end Parley
