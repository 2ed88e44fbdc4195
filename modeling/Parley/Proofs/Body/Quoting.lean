import Parley.Proofs.Body.Cutting
import Parley.Proofs.Expr.RoundTrip

/-!
The pieces of templates: of text in a body, of quoted values, and of expressions, which have quoted
texts of their own. Each is read from its source as what it is.
-/
namespace Parley

namespace Tokenizer

variable {state : Tokenizer}

/-- Whether a character stands for itself in front of another one. -/
structure Ordinary (state : Tokenizer) (c : Char) (next : Option Char) : Prop where
  dollar : c ≠ '$'
  backslash : c ≠ '\\'
  comment : c = '/' → next ≠ some '/'
  opening : c = '<' → next ≠ some '<'
  closing : c = '>' → next ≠ some '>'
  square : state.inCommand = false → c ≠ '[' ∧ c ≠ ']' ∧ c ≠ '|'
  quote : state.inCommand → c ≠ '"'

theorem reads_ordinary {c : Char} {next : Option Char} (ordinary : Ordinary state c next) :
    Reads state (.plain [c] [c]) next state := by
  obtain ⟨dollar, backslash, comment, opening, closing, square, quote⟩ := ordinary
  refine ⟨c, [], none, [c], rfl, fun rest head => ?_⟩
  subst head
  have one : ¬(c = '/' ∧ rest.head? = some '/') := fun both => comment both.1 both.2
  have two : ¬(c = '<' ∧ rest.head? = some '<') := fun both => opening both.1 both.2
  have three : ¬(c = '>' ∧ rest.head? = some '>') := fun both => closing both.1 both.2
  cases inside : state.inCommand with
  | true => simp [step, plainStep, dollar, backslash, one, two, three, inside, quote inside]
  | false =>
    obtain ⟨left, right, bar⟩ := square inside
    simp [step, plainStep, dollar, backslash, one, two, three, inside, left, right, bar]

theorem reads_escaped (c : Char) (next : Option Char) :
    Reads state (.plain ['\\', c] [c]) next state := by
  refine ⟨'\\', [c], none, [c], rfl, fun rest _ => ?_⟩
  simp [step, plainStep]

theorem nameAt_append {name rest : List Char} (named : isName name)
    (stop : ∀ c ∈ rest.head?, isNameChar c = false) : nameAt (name ++ rest) = name := by
  obtain ⟨c, more, rfl, start, all⟩ := isName_iff.mp named
  have run : (more ++ rest).takeWhile isNameChar = more :=
    takeWhile_append_of_stop (fun d member => all d (List.mem_cons_of_mem c member)) stop
  rw [List.cons_append, nameAt, start, run]
  rfl

theorem reads_var {name : String} {next : Option Char} (named : isName name.toList)
    (stop : ∀ c ∈ next, isNameChar c = false) :
    Reads state (.mark (.var name) ('$' :: name.toList)) next state := by
  refine ⟨'$', name.toList, some (.var name), [], rfl, fun rest head => ?_⟩
  have read : nameAt (name.toList ++ rest) = name.toList :=
    nameAt_append named (by rwa [head])
  obtain ⟨c, more, same, _⟩ := isName_iff.mp named
  have filled : name.toList.isEmpty = false := by rw [same]; rfl
  simp only [step, if_true, read, filled, markStep, String.ofList_toList]
  rfl

end Tokenizer

/-- Whether atoms can stand side by side: a variable and a character that its name goes on with
cannot. -/
def Atom.Apart : Atom → Atom → Prop
  | .var _, .char c => isNameChar c = false
  | _, _ => True

/-- Whether atoms are read back from what is written of them: the variables have names, and none is
written in front of a character that its name would go on with. -/
structure Atom.Readable (as : List Atom) : Prop where
  named : ∀ name, .var name ∈ as → isName name.toList
  apart : as.IsChain Atom.Apart

theorem Atom.Readable.tail {a : Atom} {as : List Atom} (readable : Atom.Readable (a :: as)) :
    Atom.Readable as :=
  ⟨fun name member => readable.named name (List.mem_cons_of_mem a member),
    (List.isChain_cons.mp readable.apart).2⟩

namespace Tokenizer

variable {state : Tokenizer}

/-- The pieces of text in a body. -/
def bodyPieces (afterSlash : Bool) : List Atom → List Piece
  | [] => []
  | .var name :: rest => .mark (.var name) ('$' :: name.toList) :: bodyPieces false rest
  | .char c :: rest =>
      (if Quotation.body.escapes c || (afterSlash && c == '/') then .plain ['\\', c] [c]
        else .plain [c] [c]) :: bodyPieces (c == '/') rest

theorem bodyPieces_of_head {as : List Atom} (head : ∀ a ∈ as.head?, a.isChar = false)
    (afterSlash : Bool) : bodyPieces afterSlash as = bodyPieces false as := by
  cases as with
  | nil => rfl
  | cons a rest =>
    cases a with
    | char c => cases head _ rfl
    | var name => rfl

theorem sourceOf_chars (cs : List Char) {rest : List Atom}
    (head : ∀ a ∈ rest.head?, a.isChar = false) (afterSlash : Bool) :
    sourceOf (bodyPieces afterSlash (cs.map .char ++ rest)) =
      escapeChars .body afterSlash cs ++ sourceOf (bodyPieces false rest) := by
  induction cs generalizing afterSlash with
  | nil => rw [List.map_nil, List.nil_append, bodyPieces_of_head head]; rfl
  | cons c more ih =>
    have later := ih (c == '/')
    rw [List.map_cons, List.cons_append, bodyPieces, escapeChars]
    simp only [sourceOf, List.flatMap_cons] at later ⊢
    rw [later]
    by_cases escaped : Quotation.body.escapes c || (afterSlash && c == '/')
    · simp [escaped, Piece.source]
    · simp only [Bool.or_eq_true, Bool.and_eq_true, beq_iff_eq] at escaped
      simp [escaped, Piece.source]

/-- The pieces of a template are its script. -/
theorem sourceOf_body (t : Template) :
    sourceOf (bodyPieces false t.atoms) = (t.toScript .body).toList := by
  have parts (ps : List Part) (normal : Part.Normal ps) :
      sourceOf (bodyPieces false (ps.flatMap Part.atoms)) =
        (String.join (ps.map (Template.partScript .body))).toList := by
    induction ps with
    | nil => simp [bodyPieces, sourceOf]
    | cons part rest ih =>
      cases part with
      | var name =>
        have later := ih normal
        simp [Part.atoms, bodyPieces, sourceOf, Piece.source, Template.partScript] at later ⊢
        exact later
      | literal text =>
        obtain ⟨_, stop, inner⟩ := normal
        rw [List.flatMap_cons, Part.atoms, sourceOf_chars _ (Part.head_atoms stop), ih inner]
        simp [Template.partScript, escapeText]
  exact parts t.parts t.normal

theorem headOf_body {as : List Atom} {afterSlash : Bool} {next : Option Char} :
    headOf (bodyPieces afterSlash as) next =
      match as with
      | [] => next
      | .var _ :: _ => some '$'
      | .char c :: _ =>
          if Quotation.body.escapes c || (afterSlash && c == '/') then some '\\' else some c := by
  cases as with
  | nil => rfl
  | cons a rest =>
    cases a with
    | var name => rfl
    | char c =>
      by_cases escaped : Quotation.body.escapes c || (afterSlash && c == '/')
      · simp only [bodyPieces, escaped, if_true]
        rfl
      · simp only [bodyPieces, escaped, if_false, Bool.false_eq_true]
        rfl

/-- Whether text can end in front of a character. -/
def Clear (next : Option Char) : Prop := ∀ c ∈ next, isNameChar c = false ∧ c ≠ '/'

theorem ordinary_of_unescaped {c : Char} {next : Option Char} (outside : state.inCommand = false)
    (unescaped : Quotation.body.escapes c = false) (comment : c = '/' → next ≠ some '/') :
    Ordinary state c next := by
  simp only [Quotation.escapes, Bool.or_eq_false_iff, beq_eq_false_iff_ne] at unescaped
  obtain ⟨⟨⟨⟨⟨⟨backslash, dollar⟩, opening⟩, closing⟩, left⟩, right⟩, bar⟩ := unescaped
  exact ⟨dollar, backslash, comment, fun same => (opening same).elim,
    fun same => (closing same).elim, fun _ => ⟨left, right, bar⟩, by simp [outside]⟩

/-- A variable ends in front of what may follow it. -/
theorem stop_of_body {as : List Atom} {afterSlash : Bool} {next : Option Char}
    (apart : ∀ a ∈ as.head?, ∀ d, a = .char d → isNameChar d = false) (clear : Clear next) :
    ∀ c ∈ headOf (bodyPieces afterSlash as) next, isNameChar c = false := by
  rw [headOf_body]
  intro c head
  cases as with
  | nil => exact (clear c head).1
  | cons b more =>
    cases b with
    | var other =>
      cases head
      rfl
    | char d =>
      have outer := apart (.char d) rfl d rfl
      dsimp only at head
      split at head
      · cases head
        rfl
      · cases head
        exact outer

/-- No comment starts behind a slash. -/
theorem no_comment_of_body {as : List Atom} {next : Option Char} (clear : Clear next) :
    headOf (bodyPieces true as) next ≠ some '/' := by
  rw [headOf_body]
  cases as with
  | nil => exact fun slash => (clear '/' slash).2 rfl
  | cons b more =>
    cases b with
    | var other => simp
    | char d =>
      dsimp only
      split
      · simp
      · rename_i free
        intro same
        cases same
        exact free (by decide)

/-- Text in a body is read as it was written. -/
theorem legible_body {as : List Atom} {afterSlash : Bool} {next : Option Char}
    (readable : Atom.Readable as) (outside : state.inCommand = false) (clear : Clear next) :
    Legible state (bodyPieces afterSlash as) next state := by
  induction as generalizing afterSlash with
  | nil => exact .nil
  | cons a rest ih =>
    have later := @ih (a == .char '/') readable.tail
    cases a with
    | var name =>
      have apart := (List.isChain_cons.mp readable.apart).1
      refine .cons (reads_var (readable.named name List.mem_cons_self) ?_) later
      refine stop_of_body (fun b head d same => ?_) clear
      subst same
      exact apart (.char d) head
    | char c =>
      have slash : (Atom.char c == .char '/') = (c == '/') := by
        rw [Bool.eq_iff_iff]
        simp
      rw [slash] at later
      rw [bodyPieces]
      split
      · exact .cons (reads_escaped c _) later
      · rename_i plain
        rw [Bool.or_eq_true, not_or, Bool.not_eq_true] at plain
        refine .cons (reads_ordinary (ordinary_of_unescaped outside plain.1 ?_)) later
        rintro rfl
        exact no_comment_of_body clear

/-! Quoted values -/

/-- What is written of some atoms between quotes. -/
def quotedSource : List Atom → List Char
  | [] => []
  | .var name :: rest => '$' :: (name.toList ++ quotedSource rest)
  | .char c :: rest =>
      if Quotation.quoted.escapes c then '\\' :: c :: quotedSource rest else c :: quotedSource rest

theorem quotedSource_chars (cs : List Char) (afterSlash : Bool) (rest : List Atom) :
    quotedSource (cs.map .char ++ rest) =
      escapeChars .quoted afterSlash cs ++ quotedSource rest := by
  induction cs generalizing afterSlash with
  | nil => rfl
  | cons c more ih =>
    rw [List.map_cons, List.cons_append, quotedSource, escapeChars, ih (c == '/')]
    by_cases escaped : Quotation.quoted.escapes c
    · simp [escaped]
    · simp [escaped]

theorem quotedSource_atoms (t : Template) :
    quotedSource t.atoms = (t.toScript .quoted).toList := by
  have parts (ps : List Part) : quotedSource (ps.flatMap Part.atoms) =
      (String.join (ps.map (Template.partScript .quoted))).toList := by
    induction ps with
    | nil => simp [quotedSource]
    | cons part rest ih =>
      cases part with
      | var name => simp [Part.atoms, quotedSource, Template.partScript, ih]
      | literal text =>
        rw [List.flatMap_cons, Part.atoms, quotedSource_chars _ false, ih]
        simp [Template.partScript, escapeText]
  exact parts t.parts

/-- The piece of a quoted value. -/
def quotedPiece (t : Template) : Piece :=
  .mark (.quoted t) ('"' :: ((t.toScript .quoted).toList ++ ['"']))

theorem head_quotedSource {as : List Atom} {rest : List Char} {c : Char}
    (head : (quotedSource as ++ '"' :: rest).head? = some c) :
    (as = [] ∧ c = '"') ∨ c = '$' ∨ c = '\\' ∨ as.head? = some (.char c) := by
  cases as with
  | nil => exact .inl ⟨rfl, (Option.some.inj head).symm⟩
  | cons a more =>
    cases a with
    | var name => exact .inr (.inl (Option.some.inj head).symm)
    | char d =>
      rw [quotedSource] at head
      split at head
      · exact .inr (.inr (.inl (Option.some.inj head).symm))
      · exact .inr (.inr (.inr (congrArg some (congrArg Atom.char (Option.some.inj head)))))

/-- What is written between quotes is read as the same atoms. -/
theorem quotedParts_quotedSource {as : List Atom} (readable : Atom.Readable as) (rest : List Char) :
    ∃ parts, quotedParts? (quotedSource as ++ '"' :: rest) =
        some (parts, (quotedSource as).length + 1) ∧ parts.flatMap Part.atoms = as := by
  induction as with
  | nil => exact ⟨[], by simp [quotedSource, quotedParts?], rfl⟩
  | cons a more ih =>
    obtain ⟨parts, read, same⟩ := ih readable.tail
    cases a with
    | var name =>
      have named := readable.named name List.mem_cons_self
      have apart := (List.isChain_cons.mp readable.apart).1
      have stop : ∀ c ∈ (quotedSource more ++ '"' :: rest).head?, isNameChar c = false := by
        intro c head
        rcases head_quotedSource head with ⟨_, rfl⟩ | rfl | rfl | next
        · rfl
        · rfl
        · rfl
        · exact apart (.char c) next
      have found := nameAt_append named stop
      obtain ⟨c, others, chars, _⟩ := isName_iff.mp named
      have filled : name.toList.isEmpty = false := by rw [chars]; rfl
      refine ⟨.var name :: parts, ?_, by simp [Part.atoms, same]⟩
      rw [quotedSource, List.cons_append, List.append_assoc, quotedParts?]
      simp only [found, filled, Bool.false_eq_true, if_false, List.drop_left, read, Option.map_some,
        String.ofList_toList, List.length_cons, List.length_append]
      congr 2
      omega
    | char c =>
      rw [quotedSource]
      split
      · refine ⟨.literal (String.ofList [c]) :: parts, ?_, by simp [Part.atoms, same]⟩
        rw [List.cons_append, List.cons_append, quotedParts?, read]
        rfl
      · rename_i plain
        simp only [Quotation.escapes, Bool.or_eq_true, beq_iff_eq, not_or] at plain
        obtain ⟨⟨backslash, dollar⟩, quote⟩ := plain
        refine ⟨.literal (String.ofList [c]) :: parts, ?_, by simp [Part.atoms, same]⟩
        rw [List.cons_append, quotedParts?, read]
        · rfl
        · exact quote
        · exact fun same _ => backslash same
        · exact fun _ _ same _ => backslash same
        · exact dollar

theorem reads_quoted {t : Template} {next : Option Char} (inside : state.inCommand)
    (readable : Atom.Readable t.atoms) : Reads state (quotedPiece t) next state := by
  refine ⟨'"', (t.toScript .quoted).toList ++ ['"'], some (.quoted t), [], rfl, fun rest _ => ?_⟩
  obtain ⟨parts, read, same⟩ := quotedParts_quotedSource readable rest
  have template : Template.ofParts parts = t := by
    apply Template.eq_of_atoms
    rw [Template.atoms_ofParts, same]
  rw [quotedSource_atoms] at read
  simp [step, inside, read, template, markStep]

end Tokenizer
end Parley
