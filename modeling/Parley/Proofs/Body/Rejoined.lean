import Parley.Proofs.Body.Acceptance

/-!
What is read of the scripts of templates. A name that a variable is written with goes on with the
name characters behind it, so that a template is read back exactly if no text behind a variable
starts with one.
-/
namespace Parley

open Tokenizer

theorem escapes_of_isNameChar {c : Char} (name : isNameChar c) (quotation : Quotation) :
    quotation.escapes c = false := by
  have inner := isInner_of_isNameChar name
  simp only [isInner, Bool.and_eq_true, bne_iff_ne] at inner
  cases quotation with
  | body =>
    have outer : c ≠ '[' ∧ c ≠ ']' ∧ c ≠ '|' := by
      refine ⟨?_, ?_, ?_⟩ <;>
        · rintro rfl
          cases name
    simp [Quotation.escapes, inner, outer]
  | quoted => simp [Quotation.escapes, inner]

namespace Atom

/-- A variable in front of some atoms, its name going on with the characters that can go on with
it. -/
def absorb (name : String) : List Atom → List Atom
  | .char c :: rest => if isNameChar c then absorb (name.push c) rest else .var name :: .char c :: rest
  | as => .var name :: as

/-- Atoms as they are read back from what is written of them. -/
def rejoin : List Atom → List Atom
  | [] => []
  | .char c :: rest => .char c :: rejoin rest
  | .var name :: rest => absorb name (rejoin rest)

theorem isName_push {name : String} {c : Char} (named : isName name.toList)
    (more : isNameChar c) : isName (name.push c).toList := by
  obtain ⟨d, rest, written, start, all⟩ := isName_iff.mp named
  refine isName_iff.mpr ⟨d, rest ++ [c], by simp [written], start, fun e member => ?_⟩
  rw [String.toList_push, List.mem_append, List.mem_singleton] at member
  rcases member with inside | rfl
  · exact all e inside
  · exact more

theorem named_absorb {name : String} {as : List Atom} (named : isName name.toList)
    (others : ∀ name, .var name ∈ as → isName name.toList) :
    ∀ other, .var other ∈ absorb name as → isName other.toList := by
  fun_induction absorb name as with
  | case1 name c rest more ih =>
    exact ih (isName_push named more) fun other member => others other (List.mem_cons_of_mem _ member)
  | case2 name c rest | case3 name as =>
    intro other member
    rcases List.mem_cons.mp member with same | inside
    · cases same
      exact named
    · exact others other inside

theorem apart_absorb {as : List Atom} (apart : as.IsChain Apart) (name : String) :
    (absorb name as).IsChain Apart := by
  fun_induction absorb name as with
  | case1 name c rest more ih => exact ih (List.isChain_cons.mp apart).2
  | case2 name c rest other =>
    exact List.isChain_cons_cons.mpr ⟨Bool.eq_false_iff.mpr other, apart⟩
  | case3 name as none =>
    refine List.isChain_cons.mpr ⟨fun b head => ?_, apart⟩
    cases as with
    | nil => cases head
    | cons a rest =>
      cases a with
      | char c => exact (none c rest rfl).elim
      | var other =>
        cases head
        trivial

/-- A name that nothing behind it goes on with stays as it is. -/
theorem absorb_of_apart {name : String} {as : List Atom}
    (apart : ∀ a ∈ as.head?, Apart (.var name) a) : absorb name as = .var name :: as := by
  cases as with
  | nil => rfl
  | cons a rest =>
    cases a with
    | var other => rfl
    | char c =>
      have other : isNameChar c = false := apart _ rfl
      rw [absorb, other]
      rfl

theorem readable_rejoin {as : List Atom} (named : ∀ name, .var name ∈ as → isName name.toList) :
    Readable (rejoin as) := by
  induction as with
  | nil => exact ⟨by simp [rejoin], .nil⟩
  | cons a rest ih =>
    obtain ⟨others, apart⟩ := ih fun name member => named name (List.mem_cons_of_mem a member)
    cases a with
    | char c =>
      refine ⟨fun name member => others name ?_, List.isChain_cons.mpr ⟨fun _ _ => trivial, apart⟩⟩
      exact (List.mem_cons.mp member).resolve_left nofun
    | var name =>
      exact ⟨named_absorb (named name List.mem_cons_self) others, apart_absorb apart name⟩

theorem apart_rejoin (as : List Atom) : (rejoin as).IsChain Apart := by
  induction as with
  | nil => exact .nil
  | cons a rest ih =>
    cases a with
    | char c => exact List.isChain_cons.mpr ⟨fun _ _ => trivial, ih⟩
    | var name => exact apart_absorb ih name

theorem rejoin_eq_iff {as : List Atom} : rejoin as = as ↔ as.IsChain Apart := by
  constructor
  · intro same
    rw [← same]
    exact apart_rejoin as
  · intro apart
    induction as with
    | nil => rfl
    | cons a rest ih =>
      obtain ⟨first, later⟩ := List.isChain_cons.mp apart
      cases a with
      | char c => rw [rejoin, ih later]
      | var name => rw [rejoin, ih later, absorb_of_apart first]

/-! Scripts -/

theorem quotedSource_absorb (name : String) (as : List Atom) :
    quotedSource (absorb name as) = '$' :: (name.toList ++ quotedSource as) := by
  fun_induction absorb name as with
  | case1 name c rest more ih =>
    rw [ih, String.toList_push, quotedSource, escapes_of_isNameChar more, if_neg Bool.false_ne_true,
      List.append_assoc, List.singleton_append]
  | case2 | case3 => rfl

theorem quotedSource_rejoin (as : List Atom) : quotedSource (rejoin as) = quotedSource as := by
  induction as with
  | nil => rfl
  | cons a rest ih =>
    cases a with
    | char c => rw [rejoin, quotedSource, quotedSource, ih]
    | var name => rw [rejoin, quotedSource_absorb, ih, quotedSource]

theorem sourceOf_absorb (name : String) (as : List Atom) (afterSlash : Bool) :
    sourceOf (bodyPieces afterSlash (absorb name as)) =
      '$' :: (name.toList ++ sourceOf (bodyPieces false as)) := by
  fun_induction absorb name as with
  | case1 name c rest more ih =>
    have slash : (c == '/') = false := beq_eq_false_iff_ne.mpr (by rintro rfl; cases more)
    rw [ih, String.toList_push, bodyPieces, escapes_of_isNameChar more, slash]
    simp [sourceOf, Piece.source]
  | case2 name c rest other | case3 name as none =>
    rw [bodyPieces]
    simp [sourceOf, Piece.source]

theorem sourceOf_rejoin (as : List Atom) (afterSlash : Bool) :
    sourceOf (bodyPieces afterSlash (rejoin as)) = sourceOf (bodyPieces afterSlash as) := by
  induction as generalizing afterSlash with
  | nil => rfl
  | cons a rest ih =>
    cases a with
    | char c =>
      have later := ih (c == '/')
      rw [rejoin, bodyPieces, bodyPieces]
      rw [sourceOf, sourceOf, List.flatMap_cons, List.flatMap_cons]
      exact congrArg _ later
    | var name =>
      rw [rejoin, sourceOf_absorb, ih, bodyPieces]
      simp [sourceOf, Piece.source]

end Atom

namespace Template

/-- A template as it is read back from its scripts: the name of each variable goes on with the name
characters behind it. -/
def rejoined (t : Template) : Template := .ofAtoms (Atom.rejoin t.atoms)

theorem separated_iff {t : Template} : t.Separated ↔ t.atoms.IsChain Atom.Apart := by
  refine ⟨apart_atoms t.normal, fun apart => ?_⟩
  have parts (ps : List Part) (normal : Part.Normal ps)
      (apart : (ps.flatMap Part.atoms).IsChain Atom.Apart) : ps.IsChain Part.Apart := by
    induction ps with
    | nil => exact .nil
    | cons part rest ih =>
      rw [List.flatMap_cons] at apart
      have later := (List.isChain_append.mp apart).2.1
      cases part with
      | literal text =>
        exact List.isChain_cons.mpr ⟨fun q _ => trivial, ih normal.2.2 later⟩
      | var name =>
        refine List.isChain_cons.mpr ⟨fun q head => ?_, ih normal later⟩
        cases q with
        | var other => trivial
        | literal text =>
          obtain ⟨more, rfl⟩ := List.head?_eq_some_iff.mp head
          intro c first
          refine (List.isChain_cons.mp apart).1 (.char c) ?_
          obtain ⟨cs, written⟩ := List.head?_eq_some_iff.mp first
          simp [Part.atoms, written]
  exact parts t.parts t.normal apart

theorem rejoined_eq_iff {t : Template} : t.rejoined = t ↔ t.Separated := by
  rw [separated_iff, ← Atom.rejoin_eq_iff]
  constructor
  · intro same
    rw [← atoms_ofAtoms (Atom.rejoin t.atoms)]
    exact congrArg atoms same
  · intro same
    apply eq_of_atoms
    rw [rejoined, atoms_ofAtoms, same]

theorem readable_rejoined {t : Template} (named : t.Named) : Atom.Readable t.rejoined.atoms := by
  rw [rejoined, atoms_ofAtoms]
  exact Atom.readable_rejoin named

theorem toScript_rejoined (t : Template) (quotation : Quotation) :
    t.rejoined.toScript quotation = t.toScript quotation := by
  apply String.toList_inj.mp
  cases quotation with
  | body =>
    rw [← sourceOf_body, ← sourceOf_body, rejoined, atoms_ofAtoms, Atom.sourceOf_rejoin]
  | quoted =>
    rw [← quotedSource_atoms, ← quotedSource_atoms, rejoined, atoms_ofAtoms,
      Atom.quotedSource_rejoin]

/-- Tokens of text have the atoms of the pieces that they are cut from. -/
theorem text_of_cut {ps : List Piece} {tokens : List Token} (cut : Cut ps tokens)
    (textual : ∀ p ∈ ps, p.isTextual) :
    (∀ t ∈ tokens, t.isText) ∧ tokens.flatMap (·.content.atoms) = ps.flatMap Piece.atoms := by
  induction cut with
  | nil => exact ⟨by simp, rfl⟩
  | mark later ih =>
    obtain ⟨text, atoms⟩ := ih fun p member => textual p (List.mem_cons_of_mem _ member)
    refine ⟨List.forall_mem_cons.mpr ⟨?_, text⟩, ?_⟩
    · exact Token.isText_iff.mpr (textual _ List.mem_cons_self)
    · rw [List.flatMap_cons, List.flatMap_cons, atoms]
      rfl
  | text split plain value_eq _ _ _ later ih =>
    subst split
    obtain ⟨text, atoms⟩ := ih fun p member => textual p (List.mem_append_right _ member)
    refine ⟨List.forall_mem_cons.mpr ⟨rfl, text⟩, ?_⟩
    rw [List.flatMap_cons, List.flatMap_append, atoms, atoms_of_plain plain, value_eq]
    simp [Content.atoms]

/-- The body script of a template that can be read back is read as its text. -/
theorem readText_of_readable {t : Template} (readable : Atom.Readable t.atoms) :
    ∃ tokens, readText (t.toScript .body) = .ok tokens ∧ (∀ x ∈ tokens, x.isText) ∧
      Item.template tokens = t := by
  obtain ⟨tokens, read, cut⟩ := readText_of_writes (writes_text readable)
  rw [String.ofList_toList] at read
  obtain ⟨text, atoms⟩ := text_of_cut cut textual_bodyPieces
  refine ⟨tokens, read, text, eq_of_atoms ?_⟩
  rw [Item.atoms_template, atoms, atoms_bodyPieces]

theorem readLine_of_readable {t : Template} (readable : Atom.Readable t.atoms) (inReply : Bool)
    (number : Nat) : readLine ⟨true, inReply⟩ number ('"' :: ((t.toScript .quoted).toList ++ ['"'])) =
      (.ok [⟨.quoted t, String.ofList ('"' :: ((t.toScript .quoted).toList ++ ['"'])), ⟨number, 1⟩⟩],
        ⟨true, inReply⟩) := by
  have legible : Legible ⟨true, inReply⟩ [quotedPiece t] none ⟨true, inReply⟩ :=
    .cons (reads_quoted rfl readable) .nil
  have read := pieces_of_legible legible ⟨number, 1⟩
  have source : sourceOf [quotedPiece t] = '"' :: ((t.toScript .quoted).toList ++ ['"']) := by
    simp [sourceOf, quotedPiece, Piece.source]
  rw [source] at read
  rw [readLine, read]
  rfl

/-- The scripts of a template, in a body and between quotes, are read as the template whose names go
on with the name characters behind them. That is the same template exactly if there are none. -/
theorem scripts_read_rejoined {t : Template} (named : t.Named) :
    (∃ tokens, readText (t.toScript .body) = .ok tokens ∧ (∀ x ∈ tokens, x.isText) ∧
      Item.template tokens = t.rejoined) ∧
    (∀ inReply number, ∃ source,
      readLine ⟨true, inReply⟩ number ('"' :: ((t.toScript .quoted).toList ++ ['"'])) =
        (.ok [⟨.quoted t.rejoined, source, ⟨number, 1⟩⟩], ⟨true, inReply⟩)) ∧
    (t.rejoined = t ↔ t.Separated) := by
  have readable := readable_rejoined named
  refine ⟨?_, fun inReply number => ?_, rejoined_eq_iff⟩
  · rw [← toScript_rejoined]
    exact readText_of_readable readable
  · rw [← toScript_rejoined]
    exact ⟨_, readLine_of_readable readable inReply number⟩

/-- A template with slashes, a marker and two variables is read back. -/
theorem scripts_read_of_greeting :
    let t : Template := .ofParts [.var "a", .literal "//<<\n", .var "b_1"]
    t.Named ∧ t.toScript .body = "$a/\\/\\<\\<\n$b_1" ∧
      ∃ tokens, readText (t.toScript .body) = .ok tokens ∧ Item.template tokens = t := by
  intro t
  have named : t.Named := by
    intro name member
    rw [atoms_ofParts] at member
    obtain rfl | rfl : name = "a" ∨ name = "b_1" := by simpa [Part.atoms] using member
    · decide
    · decide
  obtain ⟨⟨tokens, read, -, found⟩, -, same⟩ := scripts_read_rejoined named
  have separated : t.Separated := by decide
  exact ⟨named, by decide, tokens, read, found.trans (same.mpr separated)⟩

/-- The name of a variable takes a letter that stands behind it. -/
theorem script_of_letter_behind_variable_not_read :
    let t : Template := .ofParts [.var "a", .literal "b"]
    t.Named ∧ ∃ tokens, readText (t.toScript .body) = .ok tokens ∧ Item.template tokens ≠ t := by
  intro t
  have named : t.Named := by
    intro name member
    rw [atoms_ofParts] at member
    obtain rfl : name = "a" := by simpa [Part.atoms] using member
    decide
  obtain ⟨tokens, read, -, found⟩ := readText_of_readable (readable_rejoined named)
  rw [toScript_rejoined] at read
  have joined : ¬t.Separated := by decide
  exact ⟨named, tokens, read, fun same => joined (rejoined_eq_iff.mp (found.symm.trans same))⟩

end Template
end Parley
