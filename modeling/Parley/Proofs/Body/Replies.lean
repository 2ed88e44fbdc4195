import Parley.Proofs.Body.Inputs
import Parley.Proofs.Body.Layouts
import Parley.Proofs.Body.Reading

/-!
Replies. What is written of a statement, a pointer and the commands of a reply is read as the same
reply.
-/
namespace Parley

open Tokenizer

/-! Text -/

namespace Tokenizer

theorem textual_bodyPieces {as : List Atom} {afterSlash : Bool} :
    ∀ p ∈ bodyPieces afterSlash as, p.isTextual := by
  induction as generalizing afterSlash with
  | nil => simp [bodyPieces]
  | cons a rest ih =>
    intro p member
    cases a with
    | var name =>
      rcases List.mem_cons.mp member with rfl | later
      · rfl
      · exact ih p later
    | char c =>
      rcases List.mem_cons.mp member with rfl | later
      · split <;> rfl
      · exact ih p later

theorem atoms_bodyPieces (as : List Atom) (afterSlash : Bool) :
    (bodyPieces afterSlash as).flatMap Piece.atoms = as := by
  induction as generalizing afterSlash with
  | nil => rfl
  | cons a rest ih =>
    cases a with
    | var name => simp [bodyPieces, Piece.atoms, Content.atoms, ih]
    | char c =>
      rw [bodyPieces, List.flatMap_cons, ih]
      split <;> rfl

theorem sound_bodyPieces {as : List Atom} (readable : Atom.Readable as) {afterSlash : Bool} :
    ∀ p ∈ bodyPieces afterSlash as, p.Sound := by
  induction as generalizing afterSlash with
  | nil => simp [bodyPieces]
  | cons a rest ih =>
    intro p member
    cases a with
    | var name =>
      rcases List.mem_cons.mp member with rfl | later
      · obtain ⟨_, _, _, _, all⟩ := isName_iff.mp (readable.named name List.mem_cons_self)
        refine sound_mark (List.cons_ne_nil _ _) fun c inside => ?_
        rcases List.mem_cons.mp inside with rfl | letter
        · rfl
        · exact isLineBreak_of_isNameChar (all c letter)
      · exact ih readable.tail p later
    | char c =>
      rcases List.mem_cons.mp member with rfl | later
      · split
        · rename_i escaped
          refine ⟨.inl ?_, List.cons_ne_nil _ _, fun _ => List.cons_ne_nil _ _⟩
          simp only [Quotation.escapes, Bool.or_eq_true, Bool.and_eq_true, beq_iff_eq] at escaped
          rcases escaped with ((((((rfl | rfl) | rfl) | rfl) | rfl) | rfl) | rfl) | ⟨_, rfl⟩
          all_goals decide
        · refine ⟨?_, List.cons_ne_nil _ _, fun _ => List.cons_ne_nil _ _⟩
          by_cases ends : isLineBreak c
          · exact .inr ⟨c, ends, rfl⟩
          · refine .inl fun d inside => ?_
            rw [List.mem_singleton.mp inside]
            exact Bool.eq_false_iff.mpr ends
      · exact ih readable.tail p later

end Tokenizer

namespace Segment

variable {κ : Type}

theorem push_ne_nil (segments : List (Segment κ)) (s : Segment κ) : push segments s ≠ [] := by
  fun_cases push segments s <;> simp

theorem push_push_text (segments : List (Segment κ)) (t u : Template) :
    push (push segments (.text t)) (.text u) = push segments (.text (t ++ u)) := by
  have assoc (v : Template) : v ++ t ++ u = v ++ (t ++ u) := by
    apply Template.eq_of_atoms
    simp only [Template.atoms_append, List.append_assoc]
  induction segments with
  | nil => rfl
  | cons first rest ih =>
    cases rest with
    | nil =>
      cases first with
      | text v => simp only [push, assoc]
      | command c => rfl
    | cons second others =>
      obtain ⟨third, more, same⟩ :=
        List.exists_cons_of_ne_nil (push_ne_nil (second :: others) (.text t))
      have one (x : Template) : push (first :: second :: others) (.text x) =
          first :: push (second :: others) (.text x) := by
        cases first <;> rfl
      have two : push (first :: push (second :: others) (.text t)) (.text u) =
          first :: push (push (second :: others) (.text t)) (.text u) := by
        rw [same]
        cases first <;> rfl
      rw [one, one, two, ih]

/-- Text may come in parts. -/
theorem pushText_append (segments : List (Segment κ)) (t u : Template) :
    pushText segments (t ++ u) = pushText (pushText segments t) u := by
  have empty {v : Template} (none : v.isEmpty) : v.atoms = [] := Template.isEmpty_iff.mp none
  by_cases first : t.isEmpty
  · have same : t ++ u = u := by
      apply Template.eq_of_atoms
      rw [Template.atoms_append, empty first, List.nil_append]
    rw [same, pushText, pushText, pushText, if_pos first]
  · have filled : (t ++ u).isEmpty = false := isEmpty_append (Bool.eq_false_iff.mpr first)
    by_cases second : u.isEmpty
    · have same : t ++ u = t := by
        apply Template.eq_of_atoms
        rw [Template.atoms_append, empty second, List.append_nil]
      rw [same, pushText, pushText, if_neg first, if_pos second]
    · rw [pushText, pushText, pushText, filled, if_neg Bool.false_ne_true, if_neg first,
        if_neg second, push_push_text]

/-- Segments with the text of some pieces behind them. -/
def pushPieces (segments : List (Segment κ)) (ps : List Piece) : List (Segment κ) :=
  ps.foldl (fun segments p => pushText segments (.ofAtoms p.atoms)) segments

theorem atoms_pushPieces (segments : List (Segment κ)) (ps : List Piece) :
    atoms (pushPieces segments ps) = atoms segments ++ (ps.flatMap Piece.atoms).map .inl := by
  induction ps generalizing segments with
  | nil => simp [pushPieces]
  | cons p rest ih =>
    have later := ih (pushText segments (.ofAtoms p.atoms))
    rw [atoms_pushText, Template.atoms_ofAtoms, List.append_assoc, ← List.map_append] at later
    exact later

theorem merged_pushPieces {segments : List (Segment κ)} (merged : Merged segments)
    (ps : List Piece) :
    Merged (pushPieces segments ps) := by
  induction ps generalizing segments with
  | nil => exact merged
  | cons p rest ih => exact ih (merged_pushText merged)

end Segment

/-! Statements -/

namespace Body

/-- The reader of statements, which takes text wherever it stands. -/
def statementReader : Reader (List (Segment Input)) where
  step := statementStep
  say segments t := some (Segment.pushText segments t)
  step_text _ _ _ said := congrArg Except.ok (Option.some.inj said)
  say_append segments t u := congrArg some (Segment.pushText_append segments t u)

theorem runs_statementText {ps : List Piece} (textual : ∀ p ∈ ps, p.isTextual)
    (segments : List (Segment Input)) :
    statementReader.Runs segments ps (Segment.pushPieces segments ps) := by
  induction ps generalizing segments with
  | nil => exact .nil
  | cons p rest ih =>
    exact .text (textual p List.mem_cons_self) rfl
      (ih (fun q member => textual q (List.mem_cons_of_mem p member)) _)

end Body

/-! Commands with attributes -/

theorem blank_attributes (attributes : List (String × Template)) :
    ∀ p ∈ (attributePieces attributes).head?, p = .plain [' '] [' '] := by
  intro p head
  cases attributes with
  | nil => cases head
  | cons q rest => exact (Option.some.inj head).symm

/-- The pieces between the markers of a command with attributes. -/
def attributeCommand (name : String) (attributes : List (String × Template)) : List Piece :=
  plainPieces name.toList ++ attributePieces attributes

theorem encloses_command {name : String} {attributes : List (String × Template)}
    (named : isName name.toList) (sound : Attributes.Sound attributes) :
    Encloses (attributeCommand name attributes) := by
  obtain ⟨_, _, _, _, all⟩ := isName_iff.mp named
  exact .append (fun c member => isLineBreak_of_isNameChar (all c member))
    (fun c member => isInner_of_isNameChar (all c member)) (encloses_attributes sound)

theorem sourceOf_enclose (inner : List Piece) :
    sourceOf (enclose inner) = '<' :: '<' :: (sourceOf inner ++ ['>', '>']) := by
  simp [enclose, Piece.source]

theorem source_command (name : String) (attributes : List (String × Template)) :
    sourceOf (enclose (attributeCommand name attributes)) =
      ("<<" ++ name ++ String.join (attributes.map parameterText) ++ ">>").toList := by
  rw [sourceOf_enclose, attributeCommand, sourceOf_append, sourceOf_plain, sourceOf_attributes]
  simp [List.append_assoc]

/-- The name and the attributes of a command are read as they are written. -/
theorem command_of_cut {name : String} {attributes : List (String × Template)} {tokens : List Token}
    (named : isName name.toList) (sound : Attributes.Sound attributes) (start stop : Position)
    (cut : Cut (attributeCommand name attributes) tokens) :
    (∃ t, (⟨start, tokens, some stop⟩ : Enclosed).named =
        .ok (name, t, ⟨start, tokens, some stop⟩)) ∧
      ∃ entries, Attributes.ofCommand ⟨start, tokens, some stop⟩ = .ok ⟨start, entries⟩ ∧
        Attributes.Lists entries attributes :=
  ⟨Enclosed.named_of_cut named (blank_attributes attributes)
    (encloses_command named sound).inside cut _,
    Attributes.ofCommand_of_cut named sound cut⟩

namespace Body

theorem statement_of_input {i : Input} (sound : i.Sound) (segments : List (Segment Input))
    {tokens : List Token} {start stop : Position}
    (cut : Cut (attributeCommand "input" (present i.slots)) tokens) :
    statementStep segments (.command ⟨start, tokens, some stop⟩) =
      .ok (Segment.pushCommand segments i) := by
  obtain ⟨⟨t, named⟩, entries, read, listed⟩ :=
    command_of_cut (by decide) sound.attributes start stop cut
  have found : Input.ofAttributes ⟨start, entries⟩ = .ok i :=
    Input.ofAttributes_of_lists sound.fits listed
  have allowed : permit ["input"] "input" t = .ok () := rfl
  simp [statementStep, named, allowed, read, found]

end Body

/-- A reader gets through a command as it takes it. -/
theorem Reader.runs_enclose {σ : Type} {r : Reader σ} {s mid : σ} {inner : List Piece}
    (encloses : Encloses inner) (taken : ∀ tokens start stop, Cut inner tokens →
      r.step s (.command ⟨start, tokens, some stop⟩) = .ok mid) : r.Runs s (enclose inner) mid :=
  .command encloses.no_end taken .nil

/-- How a script is cut into pieces behind which text or a marker can follow. -/
structure Tokenizer.Writes (inReply : Bool) (cs : List Char) (ps : List Piece) : Prop where
  source : sourceOf ps = cs
  sound : ∀ p ∈ ps, p.Sound
  legible : ∀ next, Clear next → Legible ⟨false, inReply⟩ ps next ⟨false, inReply⟩

namespace Tokenizer

variable {inReply : Bool} {cs ds : List Char} {ps qs : List Piece}

theorem Writes.append (first : Writes inReply cs ps) (second : Writes inReply ds qs)
    (clear : ∀ next, Clear next → Clear (ds.head?.or next)) :
    Writes inReply (cs ++ ds) (ps ++ qs) := by
  refine ⟨by rw [sourceOf_append, first.source, second.source], fun p member => ?_,
    fun next after => ?_⟩
  · rcases List.mem_append.mp member with here | behind
    · exact first.sound p here
    · exact second.sound p behind
  · refine (first.legible _ ?_).append (second.legible next after)
    rw [headOf, second.source]
    exact clear next after

theorem writes_nil : Writes inReply [] [] := ⟨rfl, by simp, fun _ _ => .nil⟩

theorem writes_text {t : Template} (readable : Atom.Readable t.atoms) :
    Writes inReply (t.toScript .body).toList (bodyPieces false t.atoms) :=
  ⟨sourceOf_body t, sound_bodyPieces readable, fun _ clear => legible_body readable rfl clear⟩

theorem writes_enclose {inner : List Piece} (encloses : Encloses inner)
    (second : Writes inReply ds qs) :
    Writes inReply (sourceOf (enclose inner) ++ ds) (enclose inner ++ qs) := by
  refine ⟨by rw [sourceOf_append, second.source], fun p member => ?_, fun next after => ?_⟩
  · rcases List.mem_append.mp member with here | behind
    · exact encloses.sound p here
    · exact second.sound p behind
  · exact (encloses.legible_enclose _).append (second.legible next after)

theorem clear_of_letter {c : Char} (name : isNameChar c = false) (slash : c ≠ '/') :
    Clear (some c) := by
  rintro d ⟨⟩
  exact ⟨name, slash⟩

/-- Whether a piece neither divides nor ends a reply. -/
def Piece.Inner (p : Piece) : Prop := p.hasKind .separator = false ∧ p.hasKind .replyEnd = false

theorem inner_bodyPieces {as : List Atom} : ∀ p ∈ bodyPieces false as, p.Inner := by
  intro p member
  have textual := textual_bodyPieces p member
  cases p with
  | plain => exact ⟨rfl, rfl⟩
  | mark content source =>
    cases content with
    | text => exact ⟨rfl, rfl⟩
    | var => exact ⟨rfl, rfl⟩
    | _ => cases textual

theorem Encloses.inner_enclose {inner : List Piece} (encloses : Encloses inner) :
    ∀ p ∈ enclose inner, p.Inner := by
  intro p member
  rcases List.mem_cons.mp member with rfl | member
  · exact ⟨rfl, rfl⟩
  · rcases List.mem_append.mp member with inside | last
    · exact ⟨(encloses.inside p inside).inner _ (by decide) (by decide),
        (encloses.inside p inside).inner _ (by decide) (by decide)⟩
    · rw [List.mem_singleton.mp last]
      exact ⟨rfl, rfl⟩

end Tokenizer

namespace Body

/-- Text is followed by a command or by what stands behind the statement. -/
theorem clear_statement {segments : List (Segment Input)}
    (first : ∀ s ∈ segments.head?, s.isText = false) {next : Option Char} (clear : Clear next) :
    Clear ((statementScript segments).toList.head?.or next) := by
  cases segments with
  | nil => exact clear
  | cons s rest =>
    cases s with
    | text t => cases first _ rfl
    | command i =>
      rw [statementScript, Input.toScript_eq]
      simpa using clear_of_letter rfl (by decide)

/-- What is written of a statement is read as the same segments behind others. -/
theorem exists_statement {segments : List (Segment Input)} (merged : Segment.Merged segments)
    (text : ∀ t, .text t ∈ segments → Atom.Readable t.atoms)
    (input : ∀ i, .command i ∈ segments → i.Sound) : ∃ ps,
      (∀ inReply, Writes inReply (statementScript segments).toList ps) ∧ (∀ p ∈ ps, p.Inner) ∧
        ∀ before, Segment.Merged before → ∃ after, statementReader.Runs before ps after ∧
          Segment.Merged after ∧
            Segment.atoms after = Segment.atoms before ++ Segment.atoms segments := by
  -- what has been read before stays open: text is joined with the text in front of it
  induction segments with
  | nil => exact ⟨[], fun _ => writes_nil, by simp,
    fun before merged => ⟨before, .nil, merged, by simp [Segment.atoms]⟩⟩
  | cons s rest ih =>
    have textRest : ∀ t, .text t ∈ rest → Atom.Readable t.atoms :=
      fun t member => text t (List.mem_cons_of_mem s member)
    have inputRest : ∀ i, .command i ∈ rest → i.Sound :=
      fun i member => input i (List.mem_cons_of_mem s member)
    cases s with
    | text t =>
      obtain ⟨_, stop, later⟩ := merged
      obtain ⟨ps, writes, inner, runs⟩ := ih later textRest inputRest
      have here {inReply : Bool} :
          Writes inReply (t.toScript .body).toList (bodyPieces false t.atoms) :=
        writes_text (text t List.mem_cons_self)
      refine ⟨bodyPieces false t.atoms ++ ps, fun inReply => ?_, ?_, fun before merged => ?_⟩
      · rw [statementScript, String.toList_append]
        exact here.append (writes inReply) fun next => clear_statement stop
      · intro p member
        rcases List.mem_append.mp member with front | behind
        · exact inner_bodyPieces p front
        · exact inner p behind
      · obtain ⟨after, run, mergedAfter, atoms⟩ :=
          runs _ (Segment.merged_pushPieces merged (bodyPieces false t.atoms))
        refine ⟨after, (runs_statementText textual_bodyPieces before).append run, mergedAfter, ?_⟩
        rw [atoms, Segment.atoms_pushPieces, atoms_bodyPieces, List.append_assoc]
        rfl
    | command i =>
      have later : Segment.Merged rest := merged
      obtain ⟨ps, writes, inner, runs⟩ := ih later textRest inputRest
      have sound := input i List.mem_cons_self
      have named : isName "input".toList := by decide
      have encloses := encloses_command named sound.attributes
      refine ⟨enclose (attributeCommand "input" (present i.slots)) ++ ps, fun inReply => ?_, ?_,
        fun before merged => ?_⟩
      · rw [statementScript, String.toList_append, Input.toScript_eq]
        have written := writes_enclose encloses (writes inReply)
        rwa [source_command] at written
      · intro p member
        rcases List.mem_append.mp member with front | behind
        · exact encloses.inner_enclose p front
        · exact inner p behind
      · have taken : statementReader.Runs before _ (Segment.pushCommand before i) :=
          Reader.runs_enclose encloses fun tokens start stop cut =>
            statement_of_input sound before cut
        have mergedPush : Segment.Merged (Segment.pushCommand before i) :=
          Segment.merged_push merged trivial
        obtain ⟨after, run, mergedAfter, atoms⟩ := runs _ mergedPush
        refine ⟨after, taken.append run, mergedAfter, ?_⟩
        rw [atoms, Segment.pushCommand, Segment.atoms_push, List.append_assoc]
        rfl

/-- Whether a statement is read again from what is written of it. -/
structure StatementSound (segments : List (Segment Input)) : Prop where
  merged : Segment.Merged segments
  trimmed : Segment.trim segments = segments
  some : segments ≠ []
  text : ∀ t, .text t ∈ segments → Atom.Readable t.atoms
  input : ∀ i, .command i ∈ segments → i.Sound

theorem exists_statementPieces {segments : List (Segment Input)} (sound : StatementSound segments) :
    ∃ ps, (∀ inReply, Writes inReply (statementScript segments).toList ps) ∧
      (∀ p ∈ ps, p.Inner) ∧ ∀ tokens, Cut ps tokens → statementOf tokens = .ok (some segments) := by
  obtain ⟨ps, writes, inner, runs⟩ := exists_statement sound.merged sound.text sound.input
  refine ⟨ps, writes, inner, fun tokens cut => ?_⟩
  obtain ⟨after, run, merged, atoms⟩ := runs [] trivial
  have same : after = segments := Segment.eq_of_atoms merged sound.merged atoms
  have read : (Item.ofTokens tokens).foldlM statementStep [] = .ok segments :=
    same ▸ Reader.fold_of_runs run cut
  simp [statementOf, read, sound.trimmed, sound.some]

/-! Pointers -/

/-- Whether a pointer is written as one word. -/
structure PointerText (cs : List Char) : Prop where
  some : cs ≠ []
  letters : ∀ c ∈ cs, isNodeNameChar c ∨ c = '/' ∨ c = '.'
  single : cs.IsChain fun c d => ¬(c = '/' ∧ d = '/')

theorem letter_of_pointer {c : Char} (letter : isNodeNameChar c ∨ c = '/' ∨ c = '.') :
    isLineBreak c = false ∧ isBlank c = false ∧
      (c = '/' ∨ ∀ next, Ordinary ⟨false, true⟩ c next) := by
  have both : isLineBreak c = false ∧ isBlank c = false := by
    rcases letter with node | rfl | rfl
    · rcases Bool.or_eq_true_iff.mp node with name | hyphen
      · exact ⟨isLineBreak_of_isNameChar name, isBlank_of_isNameChar name⟩
      · rw [beq_iff_eq.mp hyphen]
        decide
    · decide
    · decide
  refine ⟨both.1, both.2, ?_⟩
  by_cases slash : c = '/'
  · exact .inl slash
  · refine .inr fun next => ?_
    have other (d : Char) (mark : isNodeNameChar d = false ∧ d ≠ '/' ∧ d ≠ '.') : c ≠ d := by
      rintro rfl
      rcases letter with node | rfl | rfl
      · rw [mark.1] at node
        cases node
      · exact mark.2.1 rfl
      · exact mark.2.2 rfl
    exact ⟨other _ (by decide), other _ (by decide), fun same => (slash same).elim,
      fun same => (other '<' (by decide) same).elim, fun same => (other '>' (by decide) same).elim,
      fun _ => ⟨other _ (by decide), other _ (by decide), other _ (by decide)⟩, nofun⟩

theorem legible_pointer {cs : List Char} {next : Option Char}
    (letters : ∀ c ∈ cs, isNodeNameChar c ∨ c = '/' ∨ c = '.')
    (single : cs.IsChain fun c d => ¬(c = '/' ∧ d = '/')) (clear : Clear next) :
    Legible ⟨false, true⟩ (plainPieces cs) next ⟨false, true⟩ := by
  induction cs with
  | nil => exact .nil
  | cons c rest ih =>
    obtain ⟨first, behind⟩ := List.isChain_cons.mp single
    have head : headOf (plainPieces rest) next = rest.head?.or next := by
      rw [headOf, sourceOf_plain]
    refine .cons (head ▸ reads_ordinary ?_)
      (ih (fun d member => letters d (List.mem_cons_of_mem c member)) behind)
    rcases (letter_of_pointer (letters c List.mem_cons_self)).2.2 with rfl | ordinary
    · refine ⟨by decide, by decide, fun _ => ?_, fun same => ?_, fun same => ?_, by decide, by simp⟩
      rotate_left
      · exact absurd same (by decide)
      · exact absurd same (by decide)
      cases rest with
      | nil => exact fun slash => (clear '/' slash).2 rfl
      | cons d more =>
        intro slash
        cases slash
        exact first '/' rfl ⟨rfl, rfl⟩
    · exact ordinary _

theorem writes_pointer {cs : List Char} (text : PointerText cs) :
    Writes true cs (plainPieces cs) := by
  have flat : ∀ c ∈ cs, isLineBreak c = false :=
    fun c member => (letter_of_pointer (text.letters c member)).1
  exact ⟨sourceOf_plain cs, fun p member => (inside_plain flat p member).sound,
    fun _ clear => legible_pointer text.letters text.single clear⟩

theorem inner_plain (cs : List Char) : ∀ p ∈ plainPieces cs, p.Inner := by
  intro p member
  obtain ⟨c, _, rfl⟩ := List.mem_map.mp member
  exact ⟨rfl, rfl⟩

end Body

/-- A single word is trimmed to itself. -/
theorem Token.trim_word {word source : String} {position : Position} (some : word.toList ≠ [])
    (filled : ∀ c ∈ word.toList, Parley.isBlank c = false) :
    trim [⟨.text word, source, position⟩] = [⟨.text word, source, position⟩] := by
  have all : word.toList.all Parley.isBlank = false := by
    obtain ⟨c, more, chars⟩ := List.exists_cons_of_ne_nil some
    rw [chars, List.all_cons, filled c (by simp [chars]), Bool.false_and]
  have kept : [Token.mk (.text word) source position].dropWhile isBlank =
      [⟨.text word, source, position⟩] := by
    have skipped := @skipBlank_text word.toList source position [] all
    rwa [String.ofList_toList] at skipped
  have start : stripStart word = word := by
    rw [stripStart, dropWhile_of_filled filled, String.ofList_toList]
  have stop : stripEnd word = word := by
    rw [stripEnd, dropEnd, dropWhile_of_filled fun c member => filled c
      (List.mem_reverse.mp member),
      List.reverse_reverse, String.ofList_toList]
  simp [trim, skipBlank, kept, mapFirst, mapText, start, stop]

namespace Body

/-- A pointer is read as it is written. -/
theorem pointerOf_of_cut {dialogue : String} {p : Pointer} {tokens : List Token}
    (text : PointerText p.toScript.toList) (read : Pointer.ofText dialogue p.toScript = .ok p)
    (cut : Cut (plainPieces p.toScript.toList) tokens) (stop : Position) :
    ∃ use, pointerOf dialogue ⟨tokens, stop⟩ = .ok use ∧ use.pointer = p := by
  have flat : ∀ c ∈ p.toScript.toList, isLineBreak c = false :=
    fun c member => (letter_of_pointer (text.letters c member)).1
  have filled : ∀ c ∈ p.toScript.toList, isBlank c = false :=
    fun c member => (letter_of_pointer (text.letters c member)).2.1
  rw [← List.append_nil (plainPieces p.toScript.toList)] at cut
  obtain ⟨position, rest, rfl, later⟩ := cut_run (by simpa using text.some) isPlain_of_mem_plain
    (fun q member => (inside_plain flat q member).not_break) (by simp) cut
  rw [cut_nil later, value_plain, String.ofList_toList]
  refine ⟨⟨p, position⟩, ?_, rfl⟩
  rw [pointerOf, Token.trim_word text.some filled]
  simp [read]

end Body

/-! Commands with a name known -/

/-- Whether some pieces are the inner ones of a command with a name and a script, of which something
is true when it is read. -/
structure IsCommand (name script : String) (holds : Enclosed → Prop) (inner : List Piece) :
    Prop where
  encloses : Encloses inner
  source : sourceOf (enclose inner) = script.toList
  named : ∀ tokens start stop, Cut inner tokens → ∃ t,
    (⟨start, tokens, some stop⟩ : Enclosed).named = .ok (name, t, ⟨start, tokens, some stop⟩)
  read : ∀ tokens start stop, Cut inner tokens → holds ⟨start, tokens, some stop⟩

theorem IsCommand.writes {name script : String} {holds : Enclosed → Prop} {inner : List Piece}
    (isCommand : IsCommand name script holds inner) {inReply : Bool} {cs : List Char}
    {ps : List Piece}
    (behind : Writes inReply cs ps) : Writes inReply (script.toList ++ cs) (enclose inner ++ ps) :=
  isCommand.source ▸ writes_enclose isCommand.encloses behind

/-- A command with its expression, if it has one. -/
theorem exists_expressionCommand {name script : String} {holds : Enclosed → Prop} {e : Option Expr}
    (named : isName name.toList) (scripted : ∀ found ∈ e, found.Scripted)
    (written : script.toList = '<' :: '<' :: (name.toList ++ behindBlank e ++ ['>', '>']))
    (read : ∀ {inner tokens start stop}, sourceOf inner = name.toList ++ behindBlank e →
      Cut inner tokens → holds ⟨start, tokens, some stop⟩) : ∃ inner,
        IsCommand name script holds inner := by
  obtain ⟨ps, source, blank, encloses⟩ := exists_expressionPieces named scripted
  refine ⟨_, encloses, ?_, fun tokens start stop cut => ?_,
    fun tokens start stop cut => read source cut⟩
  · rw [sourceOf_enclose, source, written]
  · exact Enclosed.named_of_cut named blank encloses.inside cut _

/-- A command with attributes. -/
theorem isCommand_attributes {name : String} {attributes : List (String × Template)}
    (named : isName name.toList) (sound : Attributes.Sound attributes) :
    IsCommand name ("<<" ++ name ++ String.join (attributes.map parameterText) ++ ">>")
      (fun e => ∃ found, Attributes.ofCommand e = .ok found ∧
        Attributes.Lists found.entries attributes)
      (attributeCommand name attributes) := by
  refine ⟨encloses_command named sound, source_command name attributes,
    fun tokens start stop cut => ?_, fun tokens start stop cut => ?_⟩
  · exact (command_of_cut named sound start stop cut).1
  · obtain ⟨_, entries, read, listed⟩ := command_of_cut named sound start stop cut
    exact ⟨_, read, listed⟩

theorem exists_set {s : Assignment} (scripted : s.expr.Scripted) (pure : s.value.assigns = false) :
    ∃ inner, IsCommand "set" s.toScript (·.assignment = .ok s) inner := by
  have each : ∀ found ∈ some s.expr, found.Scripted := by
    rintro found ⟨⟩
    exact scripted
  refine exists_expressionCommand (by decide) each ?_ fun source cut =>
    Enclosed.assignment_of_cut scripted pure source cut
  simp [Assignment.toScript, behindBlank]

theorem exists_action {a : Action} (sound : a.Sound) : ∃ inner, IsCommand "action" a.toScript
    (fun e => ∃ found, Attributes.ofCommand e = .ok found ∧ Action.ofAttributes found = .ok a)
      inner := by
  have isAction : isName "action".toList := by decide
  obtain ⟨encloses, source, named, read⟩ := isCommand_attributes isAction sound.attributes
  refine ⟨_, encloses, ?_, named, fun tokens start stop cut => ?_⟩
  · rw [source, Action.toScript_eq]
    rfl
  · obtain ⟨found, attributes, listed⟩ := read tokens start stop cut
    exact ⟨found, attributes, Action.ofAttributes_of_lists sound listed⟩

/-- Whether a command of a reply is read again from what is written of it. -/
def ReplyCommand.Sound : ReplyCommand → Prop
  | action a => a.Sound
  | set s => s.expr.Scripted ∧ s.value.assigns = false

namespace Body

/-- Whether some pieces are the inner ones of a command of a reply, which is read from whatever they
can be cut into. -/
structure IsReplyCommand (c : ReplyCommand) (inner : List Piece) : Prop where
  encloses : Encloses inner
  source : sourceOf (enclose inner) = c.toScript.toList
  read : ∀ tokens start stop, Cut inner tokens → replyCommand ⟨start, tokens, some stop⟩ = .ok c

theorem exists_replyCommand {c : ReplyCommand} (sound : c.Sound) :
    ∃ inner, IsReplyCommand c inner := by
  cases c with
  | action a =>
    obtain ⟨inner, encloses, source, named, read⟩ := exists_action sound
    refine ⟨inner, encloses, source, fun tokens start stop cut => ?_⟩
    obtain ⟨t, name⟩ := named tokens start stop cut
    obtain ⟨found, attributes, same⟩ := read tokens start stop cut
    have allowed : permit ["action", "set"] "action" t = .ok () := rfl
    simp [replyCommand, name, allowed, attributes, same]
  | set s =>
    obtain ⟨inner, encloses, source, named, read⟩ := exists_set sound.1 sound.2
    refine ⟨inner, encloses, source, fun tokens start stop cut => ?_⟩
    obtain ⟨t, name⟩ := named tokens start stop cut
    have allowed : permit ["action", "set"] "set" t = .ok () := rfl
    simp [replyCommand, name, allowed, read tokens start stop cut]

/-- The reader of the commands of a reply, between which it takes no text. -/
def commandReader : Reader (List ReplyCommand) where
  step commands item := (replyCommands [item]).map (commands ++ ·)
  say _ _ := none
  step_text := nofun
  say_append _ _ _ := rfl

theorem replyCommands_of_fold {items : List Item} {before after : List ReplyCommand}
    (run : items.foldlM commandReader.step before = .ok after) :
    ∃ commands, replyCommands items = .ok commands ∧ after = before ++ commands := by
  induction items generalizing before with
  | nil =>
    cases run
    exact ⟨[], rfl, (List.append_nil _).symm⟩
  | cons item rest ih =>
    obtain ⟨mid, first, later⟩ := foldlM_cons_eq_ok_iff.mp run
    obtain ⟨some, read, rfl⟩ := map_eq_ok_iff.mp first
    obtain ⟨others, readRest, rfl⟩ := ih later
    refine ⟨some ++ others, ?_, List.append_assoc _ _ _⟩
    cases item with
    | command tokens =>
      rw [replyCommands, bind_eq_ok_iff] at read
      obtain ⟨command, found, read⟩ := read
      cases read
      simp [replyCommands, found, readRest]
    | text tokens =>
      rw [replyCommands] at read ⊢
      split at read
      · cases read
        exact readRest
      · cases read
    | reply tokens => cases read
    | stray t => cases read

theorem exists_commandPieces {commands : List ReplyCommand}
    (each : ∀ c ∈ commands, ∃ inner, IsReplyCommand c inner) : ∃ ps,
      (∀ inReply, Writes inReply (String.join (commands.map ReplyCommand.toScript)).toList ps) ∧
        (∀ p ∈ ps, p.Inner) ∧
          ∀ tokens, Cut ps tokens → replyCommands (Item.ofTokens tokens) = .ok commands := by
  -- the commands that have been read before stay open for the induction
  have runs : ∃ ps,
      (∀ inReply, Writes inReply (String.join (commands.map ReplyCommand.toScript)).toList ps) ∧
        (∀ p ∈ ps, p.Inner) ∧ ∀ before, commandReader.Runs before ps (before ++ commands) := by
    induction commands with
    | nil => exact ⟨[], fun _ => writes_nil, by simp, fun before => by simpa using .nil⟩
    | cons c rest ih =>
      obtain ⟨ps, writes, inner, runs⟩ := ih fun d member => each d (List.mem_cons_of_mem c member)
      obtain ⟨inside, encloses, source, read⟩ := each c List.mem_cons_self
      refine ⟨enclose inside ++ ps, fun inReply => ?_, ?_, fun before => ?_⟩
      · have written := writes_enclose encloses (writes inReply)
        rwa [source, ← String.toList_append, ← String.join_cons] at written
      · intro p member
        rcases List.mem_append.mp member with front | behind
        · exact encloses.inner_enclose p front
        · exact inner p behind
      · have taken : commandReader.Runs before (enclose inside) (before ++ [c]) := by
          refine Reader.runs_enclose encloses fun tokens start stop cut => ?_
          simp [commandReader, replyCommands, read tokens start stop cut, Except.map]
        have whole := taken.append (runs (before ++ [c]))
        rwa [List.append_assoc] at whole
  obtain ⟨ps, writes, inner, run⟩ := runs
  refine ⟨ps, writes, inner, fun tokens cut => ?_⟩
  obtain ⟨found, read, same⟩ := replyCommands_of_fold (Reader.fold_of_runs (run []) cut)
  rw [List.nil_append, List.nil_append] at same
  rw [read, same]

/-! Sections -/

theorem sections_append {reply : Enclosed} {left : Nat} {read before behind : List Token}
    {t : Token}
    (others : ∀ u ∈ before, u.kind ≠ .separator) (bar : t.kind = .separator) :
    sections reply (left + 1) read (before ++ t :: behind) =
      (sections reply left [] behind).map (⟨read ++ before, t.position⟩ :: ·) := by
  induction before generalizing read with
  | nil =>
    rw [List.nil_append, sections, if_pos bar, List.append_nil]
    cases sections reply left [] behind <;> rfl
  | cons u rest ih =>
    have other := others u List.mem_cons_self
    rw [List.cons_append, sections, if_neg other,
      ih fun v member => others v (List.mem_cons_of_mem u member),
      List.append_assoc, List.singleton_append]

theorem sections_last {reply : Enclosed} {stop : Position} {left : Nat} {read tokens : List Token}
    (closed : reply.stop = some stop) (others : ∀ u ∈ tokens, u.kind ≠ .separator) :
    sections reply left read tokens = .ok [⟨read ++ tokens, stop⟩] := by
  induction tokens generalizing read with
  | nil => simp [sections, closed]
  | cons u rest ih =>
    have other := others u List.mem_cons_self
    have later := @ih (read ++ [u]) fun v member => others v (List.mem_cons_of_mem u member)
    rw [List.append_assoc, List.singleton_append] at later
    cases left <;> rw [sections, if_neg other, later]

end Body

/-- Whether a reply is read again from what is written of it in a dialogue. -/
structure Reply.Sound (dialogue : String) (r : Reply) : Prop where
  statement : ∀ segments ∈ r.statement, Body.StatementSound segments
  text : Body.PointerText r.pointer.toScript.toList
  pointer : Pointer.ofText dialogue r.pointer.toScript = .ok r.pointer
  commands : ∀ c ∈ r.commands, c.Sound
  alone : r.statement = none → r.commands = []

/-- Whether the parts of a reply are read again from what is written of each. -/
structure Reply.Spelled (dialogue : String) (r : Reply) : Prop where
  statement : ∀ segments ∈ r.statement, Body.StatementSound segments
  text : Body.PointerText r.pointer.toScript.toList
  pointer : Pointer.ofText dialogue r.pointer.toScript = .ok r.pointer
  commands : ∀ c ∈ r.commands, ∃ inner, Body.IsReplyCommand c inner

theorem Reply.Sound.spelled {dialogue : String} {r : Reply} (sound : r.Sound dialogue) :
    r.Spelled dialogue where
  statement := sound.statement
  text := sound.text
  pointer := sound.pointer
  commands c member := Body.exists_replyCommand (sound.commands c member)

namespace Body

theorem others_of_cut {ps : List Piece} {tokens : List Token} (inner : ∀ p ∈ ps, p.Inner)
    (cut : Cut ps tokens) : ∀ t ∈ tokens, t.kind ≠ .separator := by
  intro t member
  have other : (t.kind != .separator) = true :=
    kind_of_cut cut (by decide) (fun p inside => (inner p inside).1) t member
  exact bne_iff_ne.mp other

/-- The bar between two sections. -/
def bar : Piece := .mark .separator ['|']

theorem writes_bar {cs ds : List Char} {ps qs : List Piece} (first : Writes true cs ps)
    (second : Writes true ds qs) : Writes true (cs ++ '|' :: ds) (ps ++ bar :: qs) := by
  have behind : Writes true ('|' :: ds) (bar :: qs) := by
    refine ⟨by rw [sourceOf_cons, second.source]; rfl, fun p member => ?_,
      fun next after => .cons (reads_separator _) (second.legible next after)⟩
    rcases List.mem_cons.mp member with rfl | inside
    · exact sound_mark (by decide) (by decide)
    · exact second.sound p inside
  exact first.append behind fun _ _ => clear_of_letter rfl (by decide)

theorem inner_of_bar {ps qs : List Piece} (first : ∀ p ∈ ps, p.Inner) (second : ∀ p ∈ qs, p.Inner) :
    ∀ p ∈ ps ++ bar :: qs, p.hasKind .replyEnd = false := by
  intro p member
  rcases List.mem_append.mp member with front | behind
  · exact (first p front).2
  rcases List.mem_cons.mp behind with rfl | behind
  · rfl
  · exact (second p behind).2

theorem replyOf_of_sections {dialogue : String} {id : Nat} {reply : Enclosed} {r : Reply}
    {use : PointerUse} {statement : Option Section} {pointer : Section} {commands : Option Section}
    (cut : sections reply 2 [] reply.inner =
      .ok (statement.toList ++ pointer :: commands.toList))
    (ordered : statement = none → commands = none)
    (said : statementIn statement = .ok r.statement) (led : pointerOf dialogue pointer = .ok use)
    (done : commandsIn commands = .ok r.commands) (same : use.pointer = r.pointer) :
    replyOf dialogue id reply = .ok ({ r with id := id }, use) := by
  obtain ⟨number, spoken, target, orders⟩ := r
  cases statement with
  | none =>
    cases ordered rfl
    cases said
    cases done
    cases same
    simp [replyOf, cut, led]
  | some s =>
    have heard : statementOf s.tokens = .ok spoken := said
    cases commands with
    | none =>
      cases done
      cases same
      simp [replyOf, cut, heard, led]
    | some c =>
      have ordered : replyCommands (Item.ofTokens c.tokens) = .ok orders := done
      cases same
      simp [replyOf, cut, heard, led, ordered]

/-- Whether a reply is read, with whatever number, from all that the pieces between its markers can
be cut into. -/
def ReadsReply (dialogue : String) (r : Reply) (inner : List Piece) : Prop :=
  ∀ tokens start stop, Cut inner tokens → ∀ id, ∃ use,
    replyOf dialogue id ⟨start, tokens, some stop⟩ = .ok ({ r with id := id }, use)

section ReadsReply

variable {dialogue : String} {r : Reply} {statement commands : List Piece}

theorem reads_pointer (spelled : r.Spelled dialogue) (silent : r.statement = none)
    (quiet : r.commands = []) :
    ReadsReply dialogue r (plainPieces r.pointer.toScript.toList) := by
  intro tokens start stop cut id
  obtain ⟨use, led, same⟩ := pointerOf_of_cut spelled.text spelled.pointer cut stop
  have parts : sections ⟨start, tokens, some stop⟩ 2 [] tokens =
      .ok ((none : Option Section).toList ++ ⟨tokens, stop⟩ :: (none : Option Section).toList) :=
    sections_last rfl (others_of_cut (inner_plain _) cut)
  have said : statementIn none = .ok r.statement := by rw [silent]; rfl
  have done : commandsIn none = .ok r.commands := by rw [quiet]; rfl
  exact ⟨use, replyOf_of_sections parts (fun _ => rfl) said led done same⟩

theorem reads_statement (spelled : r.Spelled dialogue) (inner : ∀ p ∈ statement, p.Inner)
    (readSaid : ∀ tokens, Cut statement tokens → statementOf tokens = .ok r.statement)
    (quiet : r.commands = []) :
    ReadsReply dialogue r (statement ++ bar :: plainPieces r.pointer.toScript.toList) := by
  intro tokens start stop cut id
  obtain ⟨before, position, behind, rfl, first, second⟩ := cut_append_mark cut
  obtain ⟨use, led, same⟩ := pointerOf_of_cut spelled.text spelled.pointer second stop
  let all := before ++ ⟨.separator, String.ofList ['|'], position⟩ :: behind
  have parts : sections ⟨start, all, some stop⟩ 2 [] all =
      .ok ((some ⟨before, position⟩ : Option Section).toList ++ ⟨behind, stop⟩ ::
        (none : Option Section).toList) := by
    rw [sections_append (others_of_cut inner first) rfl,
      sections_last rfl (others_of_cut (inner_plain _) second)]
    rfl
  have said : statementIn (some ⟨before, position⟩) = .ok r.statement := readSaid before first
  have done : commandsIn none = .ok r.commands := by rw [quiet]; rfl
  exact ⟨use, replyOf_of_sections parts nofun said led done same⟩

theorem reads_commands (spelled : r.Spelled dialogue) (inner : ∀ p ∈ statement, p.Inner)
    (readSaid : ∀ tokens, Cut statement tokens → statementOf tokens = .ok r.statement)
    (innerOrders : ∀ p ∈ commands, p.Inner)
    (readOrders : ∀ tokens, Cut commands tokens →
      replyCommands (Item.ofTokens tokens) = .ok r.commands) :
    ReadsReply dialogue r
      (statement ++ bar :: (plainPieces r.pointer.toScript.toList ++ bar :: commands)) := by
  intro tokens start stop cut id
  obtain ⟨before, position, behind, rfl, first, second⟩ := cut_append_mark cut
  obtain ⟨middle, place, last, rfl, second, third⟩ := cut_append_mark second
  obtain ⟨use, led, same⟩ := pointerOf_of_cut spelled.text spelled.pointer second place
  let all := before ++ ⟨.separator, String.ofList ['|'], position⟩ ::
    (middle ++ ⟨.separator, String.ofList ['|'], place⟩ :: last)
  have parts : sections ⟨start, all, some stop⟩ 2 [] all =
      .ok ((some ⟨before, position⟩ : Option Section).toList ++ ⟨middle, place⟩ ::
        (some ⟨last, stop⟩ : Option Section).toList) := by
    rw [sections_append (others_of_cut inner first) rfl,
      sections_append (others_of_cut (inner_plain _) second) rfl,
      sections_last rfl (others_of_cut innerOrders third)]
    rfl
  have said : statementIn (some ⟨before, position⟩) = .ok r.statement := readSaid before first
  have done : commandsIn (some ⟨last, stop⟩) = .ok r.commands := readOrders last third
  exact ⟨use, replyOf_of_sections parts nofun said led done same⟩

end ReadsReply

/-- What is written of a reply between its markers is read as the reply. -/
theorem exists_reply {dialogue : String} {r : Reply} (spelled : r.Spelled dialogue)
    (alone : r.statement = none → r.commands = []) : ∃ inner,
    Writes true (sourceOf inner) inner ∧
      '[' :: '[' :: (sourceOf inner ++ [']', ']']) = r.toScript.toList ∧
        (∀ p ∈ inner, p.hasKind .replyEnd = false) ∧ ReadsReply dialogue r inner := by
  have pointer := writes_pointer spelled.text
  have innerPointer := inner_plain r.pointer.toScript.toList
  cases statement : r.statement with
  | none =>
    have quiet := alone statement
    refine ⟨_, ⟨rfl, pointer.sound, pointer.legible⟩, ?_, fun p member => (innerPointer p member).2,
      reads_pointer spelled statement quiet⟩
    simp [Reply.toScript, statement, quiet, pointer.source]
  | some segments =>
    obtain ⟨said, writes, innerSaid, readSaid⟩ :=
      exists_statementPieces (spelled.statement segments statement)
    rw [← statement] at readSaid
    by_cases quiet : r.commands = []
    · have whole := writes_bar (writes true) pointer
      refine ⟨_, ⟨rfl, whole.sound, whole.legible⟩, ?_, inner_of_bar innerSaid innerPointer,
        reads_statement spelled innerSaid readSaid quiet⟩
      rw [whole.source]
      simp [Reply.toScript, statement, quiet]
    · obtain ⟨orders, written, innerOrders, readOrders⟩ := exists_commandPieces spelled.commands
      have whole := writes_bar (writes true) (writes_bar pointer (written true))
      refine ⟨_, ⟨rfl, whole.sound, whole.legible⟩, ?_, fun p member => ?_,
        reads_commands spelled innerSaid readSaid innerOrders readOrders⟩
      · rw [whole.source]
        have some : r.commands.isEmpty = false := by simpa using quiet
        simp [Reply.toScript, statement, some]
      · rcases List.mem_append.mp member with front | behind
        · exact (innerSaid p front).2
        rcases List.mem_cons.mp behind with rfl | behind
        · rfl
        · exact inner_of_bar innerPointer innerOrders p behind

/-- The pieces of a reply around those between its markers. -/
def replyPieces (inner : List Piece) : List Piece :=
  .mark .replyStart ['[', '['] :: (inner ++ [.mark .replyEnd [']', ']']])

theorem writes_reply {inner : List Piece} (writes : Writes true (sourceOf inner) inner) :
    Writes false ('[' :: '[' :: (sourceOf inner ++ [']', ']'])) (replyPieces inner) := by
  refine ⟨?_, fun p member => ?_, fun next clear => ?_⟩
  · rw [replyPieces, sourceOf_cons, sourceOf_append]
    simp [Piece.source]
  · rcases List.mem_cons.mp member with rfl | member
    · exact sound_mark (by decide) (by decide)
    · rcases List.mem_append.mp member with inside | last
      · exact writes.sound p inside
      · rw [List.mem_singleton.mp last]
        exact sound_mark (by decide) (by decide)
  · have closes : Legible ⟨false, true⟩ [.mark .replyEnd [']', ']']] next ⟨false, false⟩ :=
      .cons (reads_replyEnd _) .nil
    exact .cons (reads_replyStart _)
      (Legible.append (writes.legible (some ']') (clear_of_letter rfl (by decide))) closes)

end Body

end Parley
