import Parley.Proofs.Body.Commands

/-!
Expressions in commands. What is written of an expression is cut into tokens whose sources are put
together to the same text, so the expression is read from them.
-/
namespace Parley

open Numeral Terminal

/-- Whether a text ends no line but by a line feed. -/
def Unbroken (s : String) : Prop := ∀ c ∈ s.toList, c = '\n' ∨ isLineBreak c = false

namespace Tokenizer

theorem mem_nameAt {cs : List Char} : ∀ c ∈ nameAt cs, isNameChar c := by
  intro c member
  cases cs with
  | nil => cases member
  | cons d rest =>
    rw [nameAt] at member
    split at member
    · rename_i start
      rcases List.mem_cons.mp member with rfl | later
      · exact isNameChar_iff.mpr (.inl start)
      · exact List.all_eq_true.mp List.all_takeWhile c later
    · cases member

/-- A text is the name that it starts with and what follows, which does not go on with the name. -/
theorem exists_nameAt {cs : List Char} (some : nameAt cs ≠ []) : ∃ name rest, cs = name ++ rest ∧
    nameAt cs = name ∧ isName name ∧ ∀ c ∈ rest.head?, isNameChar c = false := by
  cases cs with
  | nil => exact (some rfl).elim
  | cons c more =>
    rw [nameAt] at some ⊢
    split
    · rename_i start
      refine ⟨_, more.dropWhile isNameChar, ?_, rfl, ?_, ?_⟩
      · rw [List.cons_append, List.takeWhile_append_dropWhile]
      · rw [isName, start, Bool.true_and]
        exact List.all_takeWhile
      · intro d head
        have stop := List.head?_dropWhile_not isNameChar more
        rw [head] at stop
        simpa using stop
    · rename_i other
      rw [if_neg other] at some
      exact (some rfl).elim

/-- Where a text starts with no name, none is made by what follows it. -/
theorem nameAt_append_of_unnamed {cs rest : List Char} (some : cs ≠ []) (unnamed : nameAt cs = []) :
    nameAt (cs ++ rest) = [] := by
  obtain ⟨c, more, rfl⟩ := List.exists_cons_of_ne_nil some
  rw [nameAt] at unnamed
  rw [List.cons_append, nameAt]
  split at unnamed
  · cases unnamed
  · rename_i start
    rw [if_neg start]

/-- A name in a quoted text does not end it. -/
theorem quotedLength_name {name rest : List Char} (all : ∀ c ∈ name, isNameChar c) :
    quotedLength? '"' (name ++ rest) = (quotedLength? '"' rest).map (· + name.length) := by
  induction name with
  | nil => simp
  | cons c more ih =>
    have inner := all c List.mem_cons_self
    have quote : c ≠ '"' := by
      rintro rfl
      cases inner
    have slash : c ≠ '\\' := by
      rintro rfl
      cases inner
    rw [List.cons_append, quotedLength_ordinary quote slash,
      ih fun d member => all d (List.mem_cons_of_mem c member), Option.map_map]
    congr 1

theorem quotedParts_ordinary {c : Char} {rest : List Char} (quote : c ≠ '"') (slash : c ≠ '\\')
    (dollar : c ≠ '$') : quotedParts? (c :: rest) =
      (quotedParts? rest).map fun (parts, n) => (.literal (String.ofList [c]) :: parts, n + 1) := by
  rw [quotedParts?]
  · exact quote
  · exact fun same _ => slash same
  · exact fun _ _ same _ => slash same
  · exact dollar

/-- A string literal ends at the same place as the quoted value that it is taken for. -/
theorem quotedParts_of_quotedLength {cs : List Char} {n : Nat}
    (length : quotedLength? '"' cs = some n) :
    ∃ parts, ∀ rest, quotedParts? (cs ++ rest) = some (parts, n) := by
  -- the recursion that stops at names; the one that looks for the quote walks through them
  fun_induction quotedParts? cs generalizing n with
  | case1 => cases length
  | case2 rest =>
    cases length
    exact ⟨[], fun _ => by rw [List.cons_append, quotedParts?]⟩
  | case3 => cases length
  | case4 c more ih =>
    rw [quotedLength?] at length
    split at length
    · cases length
    · obtain ⟨m, found, rfl⟩ := Option.map_eq_some_iff.mp length
      obtain ⟨parts, read⟩ := ih found
      refine ⟨.literal (String.ofList [c]) :: parts, fun rest => ?_⟩
      rw [List.cons_append, List.cons_append, quotedParts?, read]
      rfl
  | case5 more name none =>
    rename_i ih
    rw [quotedLength_ordinary (by decide) (by decide)] at length
    obtain ⟨m, found, rfl⟩ := Option.map_eq_some_iff.mp length
    obtain ⟨parts, read⟩ := ih found
    refine ⟨.literal "$" :: parts, fun rest => ?_⟩
    have filled : more ≠ [] := by
      rintro rfl
      cases found
    have unnamed : nameAt (more ++ rest) = [] :=
      nameAt_append_of_unnamed filled (List.isEmpty_iff.mp none)
    rw [List.cons_append, quotedParts?, unnamed, read]
    rfl
  | case6 more written some =>
    rename_i ih
    subst written
    obtain ⟨name, behind, rfl, same, named, stop⟩ := exists_nameAt (mt List.isEmpty_iff.mpr some)
    rw [same, List.drop_left] at ih
    rw [quotedLength_ordinary (by decide) (by decide),
      quotedLength_name (same ▸ mem_nameAt)] at length
    obtain ⟨m, found, rfl⟩ := Option.map_eq_some_iff.mp length
    obtain ⟨k, inner, rfl⟩ := Option.map_eq_some_iff.mp found
    obtain ⟨parts, read⟩ := ih inner
    refine ⟨.var (String.ofList name) :: parts, fun rest => ?_⟩
    have filled : behind ≠ [] := by
      rintro rfl
      cases inner
    have again : nameAt (name ++ (behind ++ rest)) = name := by
      refine nameAt_append named fun c head => stop c ?_
      rwa [List.head?_append_of_ne_nil _ filled] at head
    rw [same] at some
    rw [List.cons_append, List.append_assoc, quotedParts?, again, if_neg some, List.drop_left, read]
    rfl
  | case7 c more quote last slash dollar ih =>
    have plain := ne_backslash last slash
    rw [quotedLength_ordinary (fun same => quote same) plain] at length
    obtain ⟨m, found, rfl⟩ := Option.map_eq_some_iff.mp length
    obtain ⟨parts, read⟩ := ih found
    refine ⟨.literal (String.ofList [c]) :: parts, fun rest => ?_⟩
    rw [List.cons_append, quotedParts_ordinary (fun same => quote same) plain
      (fun same => dollar same), read]
    rfl

theorem flat_quoteChar {c : Char} (unbroken : c = '\n' ∨ isLineBreak c = false) :
    ∀ d ∈ quoteChar c, isLineBreak d = false := by
  rcases quoteChar_cases c with ⟨d, among, same, _⟩ | ⟨same, _, _, feed⟩
  · rw [same]
    simp only [List.mem_cons, List.not_mem_nil, or_false] at among
    rcases among with rfl | rfl | rfl | rfl <;> decide
  · rw [same]
    intro d member
    rw [List.mem_singleton.mp member]
    exact unbroken.resolve_left feed

/-- Whether pieces stand for some text inside a command, in front of a character. -/
def Renders (cs : List Char) (next : Option Char) : Prop :=
  ∃ ps, sourceOf ps = cs ∧ (∀ p ∈ ps, p.Inside) ∧
    ∀ inReply, Legible ⟨true, inReply⟩ ps next ⟨true, inReply⟩

theorem renders_inner {cs : List Char} (inner : ∀ c ∈ cs, isInner c)
    (flat : ∀ c ∈ cs, isLineBreak c = false) (next : Option Char) : Renders cs next :=
  ⟨plainPieces cs, sourceOf_plain cs, inside_plain flat, fun _ => legible_inner inner next⟩

theorem renders_mark {content : Content} {source : List Char} {next : Option Char}
    (some : source ≠ []) (flat : ∀ c ∈ source, isLineBreak c = false)
    (inner : ∀ kind, kind ≠ .var → kind ≠ .quoted → (content.kind == kind) = false)
    (reads : ∀ inReply, Reads ⟨true, inReply⟩ (.mark content source) next ⟨true, inReply⟩) :
    Renders source next := by
  refine ⟨[.mark content source], List.append_nil source, fun p member => ?_,
    fun inReply => .cons (reads inReply) .nil⟩
  rw [List.mem_singleton.mp member]
  exact ⟨flat, some, nofun, inner⟩

theorem Renders.append {cs ds : List Char} {next : Option Char}
    (first : Renders cs (ds.head?.or next)) (second : Renders ds next) :
    Renders (cs ++ ds) next := by
  obtain ⟨ps, rfl, inside, legible⟩ := first
  obtain ⟨qs, rfl, inside', legible'⟩ := second
  refine ⟨ps ++ qs, sourceOf_append ps qs, fun p member => ?_,
    fun inReply => (legible inReply).append (legible' inReply)⟩
  rcases List.mem_append.mp member with here | behind
  · exact inside p here
  · exact inside' p behind

theorem renders_name {cs : List Char} (name : ∀ c ∈ cs, isNameChar c) (next : Option Char) :
    Renders cs next :=
  renders_inner (fun c member => isInner_of_isNameChar (name c member))
    (fun c member => isLineBreak_of_isNameChar (name c member)) next

theorem renders_variable {name : List Char} {next : Option Char} (named : isName name)
    (ends : ∀ c ∈ next, isNameChar c = false) : Renders ('$' :: name) next := by
  obtain ⟨_, _, _, _, all⟩ := isName_iff.mp named
  have content : ∀ kind, kind ≠ .var → kind ≠ .quoted →
      ((Content.var (String.ofList name)).kind == kind) = false :=
    fun kind other _ => beq_eq_false_iff_ne.mpr other.symm
  refine renders_mark (List.cons_ne_nil _ _) (fun c member => ?_) content fun inReply => ?_
  · rcases List.mem_cons.mp member with rfl | inside
    · rfl
    · exact isLineBreak_of_isNameChar (all c inside)
  · rw [← String.toList_ofList (l := name)] at named
    simpa using @reads_var ⟨true, inReply⟩ _ next named ends

theorem renders_digits {cs : List Char}
    (digits : ∀ c ∈ cs, isPlainDigit c ∨ c = '.' ∨ c = 'e' ∨ c = '+' ∨ c = '-')
    (next : Option Char) :
    Renders cs next := by
  have both : ∀ c ∈ cs, isInner c ∧ isLineBreak c = false := by
    intro c member
    rcases digits c member with digit | rfl | rfl | rfl | rfl
    · have name := isNameChar_iff.mpr (.inr digit)
      exact ⟨isInner_of_isNameChar name, isLineBreak_of_isNameChar name⟩
    all_goals decide
  exact renders_inner (fun c member => (both c member).1) (fun c member => (both c member).2) next

theorem renders_operator {op : BinaryOp} {rest : List Char} (apart : (operator op).Apart rest) :
    Renders op.symbol.toList (rest.head?.or (some '>')) := by
  have alone {c : Char} {next : Option Char} {inReply : Bool} (dollar : c ≠ '$')
      (slash : c ≠ '\\') (quote : c ≠ '"') (other : next ≠ some c) :
      Reads ⟨true, inReply⟩ (.plain [c] [c]) next ⟨true, inReply⟩ :=
    reads_single dollar slash quote fun _ => other
  have flat : ∀ op : BinaryOp, ∀ c ∈ op.symbol.toList, isLineBreak c = false := by
    intro op
    cases op <;> decide
  refine ⟨plainPieces op.symbol.toList, sourceOf_plain _, inside_plain (flat op), fun inReply => ?_⟩
  cases op with
  | div | lt | gt =>
    rw [show rest.head? = some ' ' from apart]
    exact .cons (alone (by decide) (by decide) (by decide) (by decide)) .nil
  | le | ge =>
    rw [show rest.head? = some ' ' from apart]
    exact .cons (alone (by decide) (by decide) (by decide) (by decide))
      (.cons (alone (by decide) (by decide) (by decide) (by decide)) .nil)
  | _ => exact legible_inner (by decide) _

/-- A text in double quotes stands for a quoted value. -/
theorem renders_quoted {inner : List Char} (closed : quotedLength? '"' inner = some inner.length)
    (flat : ∀ c ∈ inner, isLineBreak c = false) (next : Option Char) :
    Renders ('"' :: inner) next := by
  obtain ⟨parts, read⟩ := quotedParts_of_quotedLength closed
  have content : ∀ kind, kind ≠ .var → kind ≠ .quoted →
      ((Content.quoted (.ofParts parts)).kind == kind) = false :=
    fun kind _ other => beq_eq_false_iff_ne.mpr other.symm
  refine renders_mark (List.cons_ne_nil _ _) ?_ content fun inReply => ?_
  · intro c member
    rcases List.mem_cons.mp member with rfl | inside
    · rfl
    · exact flat c inside
  · refine ⟨'"', inner, some (.quoted (.ofParts parts)), [], rfl, fun rest _ => ?_⟩
    simp [step, markStep, read]

theorem renders_text {s : String} (unbroken : Unbroken s) (next : Option Char) :
    Renders (Terminal.literal (.text s)).spelling next := by
  have spelled : (literal (.text s)).spelling = '"' :: (s.toList.flatMap quoteChar ++ ['"']) := by
    rw [spelling, Literal.toText, quoteText, String.toList_ofList, List.append_assoc]
    rfl
  rw [spelled]
  refine renders_quoted ?_ (fun c member => ?_) next
  · rw [quotedLength_quoted, List.length_append, List.length_singleton]
  · rcases List.mem_append.mp member with inside | last
    · obtain ⟨d, inside, here⟩ := List.mem_flatMap.mp inside
      exact flat_quoteChar (unbroken d inside) c here
    · rw [List.mem_singleton.mp last]
      rfl

theorem renders_literal {l : Literal} (fit : (literal l).Fit)
    (unbroken : ∀ s, l = .text s → Unbroken s) (next : Option Char) :
    Renders (Terminal.literal l).spelling next := by
  cases l with
  | null => exact renders_inner (by decide) (by decide) _
  | bool b => cases b <;> exact renders_inner (by decide) (by decide) _
  | int n =>
    rw [spelling, Literal.toText, natText, String.toList_ofList]
    exact renders_digits (fun c member => .inl (natChars_plain n c member)) _
  | float x =>
    obtain ⟨finite, positive⟩ := fit
    cases x with
    | nan => cases finite
    | infinite negative => cases finite
    | finite negative significand power h =>
      cases positive
      obtain ⟨l, _, chars, _⟩ := Binary64.exists_layout h
      rw [spelling, Literal.toText, Binary64.text, String.toList_ofList, chars]
      exact renders_digits (fun c member => Layout.mem_chars member) _
  | text s => exact renders_text (unbroken s rfl) next

/-- What holds of the character behind some text and of the marker at the end of the command. -/
theorem forall_mem_or {p : Char → Prop} {cs : List Char} (outer : ∀ c ∈ cs.head?, p c)
    (last : p '>') : ∀ c ∈ cs.head?.or (some '>'), p c := by
  intro c head
  cases cs with
  | nil =>
    cases head
    exact last
  | cons d more => exact outer c head

/-- What is written of a terminal can stand in a command. -/
theorem renders_terminal {t : Terminal} {rest : List Char} (fit : t.Fit) (apart : t.Apart rest)
    (unbroken : ∀ s, t = literal (.text s) → Unbroken s) :
    Renders t.spelling (rest.head?.or (some '>')) := by
  cases t with
  | var name => exact renders_variable fit (forall_mem_or apart rfl)
  | name word =>
    obtain ⟨_, _, _, _, all⟩ := isName_iff.mp fit
    exact renders_name all _
  | operator op => exact renders_operator apart
  | literal l => exact renders_literal fit (fun s same => unbroken s (congrArg literal same)) _
  | opening bracket => cases bracket <;> exact renders_inner (by decide) (by decide) _
  | closing bracket => cases bracket <;> exact renders_inner (by decide) (by decide) _
  | _ => exact renders_inner (by decide) (by decide) _

/-- What is written of an expression can stand at the end of a command. -/
theorem renders_inks {expected : Expected} {inks : List Ink} (legible : Ink.Legible expected inks)
    (unbroken : ∀ s, .mark (literal (.text s)) ∈ inks → Unbroken s) :
    Renders (inks.flatMap Ink.chars) (some '>') := by
  induction inks generalizing expected with
  | nil => exact ⟨[], rfl, by simp, fun _ => .nil⟩
  | cons ink rest ih =>
    have inner : ∀ s, .mark (literal (.text s)) ∈ rest → Unbroken s :=
      fun s member => unbroken s (List.mem_cons_of_mem ink member)
    cases ink with
    | blank => exact (renders_inner (by decide) (by decide) _).append (ih legible inner)
    | mark t =>
      obtain ⟨fit, _, apart, later⟩ := legible
      refine (renders_terminal fit apart ?_).append (ih later inner)
      rintro s rfl
      exact unbroken s List.mem_cons_self

end Tokenizer

/-- Whether an expression is read again from a command that it is written in. -/
structure Expr.Scripted (e : Expr) : Prop where
  spells : Expr.Spells e.toText.toList (.operand e.level e)
  unbroken : ∀ s, .literal (.text s) ∈ e.nodes → Unbroken s

open Tokenizer

/-- The characters behind the name of a command whose expression is written behind a blank. -/
def behindBlank : Option Expr → List Char
  | none => []
  | some e => ' ' :: e.toText.toList

/-- The pieces of a command of a name and what is typed behind it. -/
theorem exists_typedPieces {name : String} (named : isName name.toList) {typed : List Char}
    {next : Option Char} (renders : Renders typed next) : ∃ ps,
      sourceOf (plainPieces name.toList ++ ps) = name.toList ++ ' ' :: typed ∧
        (∀ p ∈ ps.head?, p = .plain [' '] [' ']) ∧ (∀ p ∈ plainPieces name.toList ++ ps, p.Inside) ∧
          ∀ inReply, Legible ⟨true, inReply⟩ (plainPieces name.toList ++ ps) next
            ⟨true, inReply⟩ := by
  obtain ⟨_, _, _, _, all⟩ := isName_iff.mp named
  obtain ⟨ps, rfl, inside, legible⟩ := renders
  refine ⟨plainPieces [' '] ++ ps, ?_, ?_, fun p member => ?_, fun inReply => ?_⟩
  · simp
  · rintro p ⟨⟩
    rfl
  · rcases List.mem_append.mp member with front | member
    · exact inside_plain (fun c member => isLineBreak_of_isNameChar (all c member)) p front
    · rcases List.mem_append.mp member with blank | later
      · exact inside_plain (by decide) p blank
      · exact inside p later
  · exact (legible_inner (fun c member => isInner_of_isNameChar (all c member)) _).append
      ((legible_inner (by decide) _).append (legible inReply))

/-- The pieces of a command of a name and an expression, if it has one. -/
theorem exists_expressionPieces {name : String} (named : isName name.toList) {e : Option Expr}
    (scripted : ∀ found ∈ e, found.Scripted) : ∃ ps,
      sourceOf (plainPieces name.toList ++ ps) = name.toList ++ behindBlank e ∧
        (∀ p ∈ ps.head?, p = .plain [' '] [' ']) ∧ Encloses (plainPieces name.toList ++ ps) := by
  cases e with
  | none =>
    obtain ⟨_, _, _, _, all⟩ := isName_iff.mp named
    refine ⟨[], by simp [behindBlank], by simp, .append ?_ ?_ encloses_nil⟩
    · exact fun c member => isLineBreak_of_isNameChar (all c member)
    · exact fun c member => isInner_of_isNameChar (all c member)
  | some e =>
    obtain ⟨⟨inks, text, derives, legible⟩, unbroken⟩ := scripted e rfl
    have whole := legible [] Expr.clear_nil trivial
    rw [List.append_nil] at whole
    have renders := renders_inks whole fun s member =>
      unbroken s ((Expr.literal_mem_nodes derives).mpr (List.mem_filterMap.mpr ⟨_, member, rfl⟩))
    rw [text] at renders
    obtain ⟨ps, source, blank, inside, readable⟩ := exists_typedPieces named renders
    exact ⟨ps, source, blank, inside, readable⟩

namespace Enclosed

variable {name : String} {ps : List Piece} {tokens : List Token} {start stop : Position}

/-- The name of a command is read, and as an expression what follows it. -/
theorem nameAndExpr_of_source (named : isName name.toList) {rest : List Char}
    (ends : ∀ c ∈ rest.head?, isNameChar c = false) (source : sourceOf ps = name.toList ++ rest)
    (cut : Cut ps tokens) : ∃ place : Position → Position,
      (⟨start, tokens, some stop⟩ : Enclosed).nameAndExpr =
        if rest.all isBlank then .ok (name, none)
        else ((Expr.parseChars rest).mapError fun defect =>
          (Cause.invalidExpression defect.defect).placedAt (place defect.position)).map
            fun e => (name, some e) := by
  obtain ⟨c, more, chars, _, all⟩ := isName_iff.mp named
  have first : isBlank c = false := isBlank_of_isNameChar (all c (by simp [chars]))
  have content : (⟨start, tokens, some stop⟩ : Enclosed).source = .ok (name.toList ++ rest) := by
    rw [Enclosed.source, source_of_cut cut, source]
    rfl
  have filled : (name.toList ++ rest).all isBlank = false := by
    rw [chars, List.cons_append, List.all_cons, first, Bool.false_and]
  have unblank : (name.toList ++ rest).takeWhile isBlank = [] ∧
      (name.toList ++ rest).dropWhile isBlank = name.toList ++ rest := by
    rw [chars, List.cons_append]
    exact ⟨List.takeWhile_cons_of_neg (by simp [first]),
      List.dropWhile_cons_of_neg (by simp [first])⟩
  have found : nameAt (name.toList ++ rest) = name.toList := nameAt_append named ends
  have nonempty : name.toList.isEmpty = false := by
    rw [chars]
    rfl
  refine ⟨placeInScript ((tokens.head?.map (·.position)).getD start) name.toList, ?_⟩
  unfold Enclosed.nameAndExpr
  rw [content]
  simp only [ok_bind, filled, unblank, found, nonempty, Bool.false_eq_true, if_false,
    List.nil_append, List.drop_left, String.ofList_toList]
  split
  · rfl
  · cases Expr.parseChars rest <;> rfl

/-- The expression of a command is what its text behind the name is read as. -/
theorem nameAndExpr_eq_some_iff (named : isName name.toList) {rest : List Char}
    (ends : ∀ c ∈ rest.head?, isNameChar c = false) (source : sourceOf ps = name.toList ++ rest)
    (cut : Cut ps tokens) {e : Expr} :
    (⟨start, tokens, some stop⟩ : Enclosed).nameAndExpr = .ok (name, some e) ↔
      Expr.parseChars rest = .ok e := by
  obtain ⟨place, read⟩ := @nameAndExpr_of_source name ps tokens start stop named _ ends source cut
  rw [read]
  constructor
  · intro found
    split at found
    · cases found
    · obtain ⟨_, parsed, same⟩ := map_eq_ok_iff.mp found
      cases same
      exact mapError_eq_ok_iff.mp parsed
  · intro parsed
    rw [(Expr.parseChars_eq_ok_iff.mp parsed).1, parsed]
    rfl

/-- What is behind the name of a command and is no expression is refused as such. -/
theorem nameAndExpr_of_refused (named : isName name.toList) {rest : List Char}
    (ends : ∀ c ∈ rest.head?, isNameChar c = false) (source : sourceOf ps = name.toList ++ rest)
    (cut : Cut ps tokens) (filled : rest.all isBlank = false) {defect : Expr.ParseError}
    (refused : Expr.parseChars rest = .error defect) :
    ∃ place, (⟨start, tokens, some stop⟩ : Enclosed).nameAndExpr =
      .error ((Cause.invalidExpression defect.defect).placedAt place) := by
  obtain ⟨place, read⟩ := @nameAndExpr_of_source name ps tokens start stop named _ ends source cut
  rw [filled, refused] at read
  exact ⟨_, read⟩

/-- The name of a command and the expression behind it are read as they are written. -/
theorem nameAndExpr_of_cut (named : isName name.toList) {e : Option Expr}
    (scripted : ∀ found ∈ e, found.Scripted)
    (source : sourceOf ps = name.toList ++ behindBlank e) (cut : Cut ps tokens) :
    (⟨start, tokens, some stop⟩ : Enclosed).nameAndExpr = .ok (name, e) := by
  cases e with
  | none =>
    obtain ⟨place, read⟩ :=
      @nameAndExpr_of_source name ps tokens start stop named _ (by simp [behindBlank]) source cut
    rw [read]
    rfl
  | some e =>
    have ends : ∀ c ∈ (behindBlank e).head?, isNameChar c = false := by
      rintro c ⟨⟩
      rfl
    exact (nameAndExpr_eq_some_iff named ends source cut).mpr
      (Expr.parseChars_of_spells (scripted e rfl).spells 1)

theorem nameOnly_of_cut (named : isName name.toList) (source : sourceOf ps = name.toList)
    (cut : Cut ps tokens) : (⟨start, tokens, some stop⟩ : Enclosed).nameOnly name = .ok () := by
  have whole : sourceOf ps = name.toList ++ behindBlank none := by simp [source, behindBlank]
  rw [Enclosed.nameOnly, nameAndExpr_of_cut named (by simp) whole cut]
  simp

theorem expr_eq_ok_iff {e : Enclosed} {found : Expr} :
    e.expr name = .ok found ↔ e.nameAndExpr = .ok (name, some found) := by
  rw [Enclosed.expr, bind_eq_ok_iff]
  constructor
  · rintro ⟨⟨other, given⟩, read, same⟩
    dsimp only at same
    split at same
    · cases same
    · rename_i known
      obtain rfl : other = name := Decidable.not_not.mp known
      cases given with
      | none => cases same
      | some given =>
        cases same
        exact read
  · intro read
    exact ⟨_, read, by simp⟩

theorem condition_of_nameAndExpr {e : Enclosed} {found : Expr} (pure : found.assigns = false)
    (read : e.nameAndExpr = .ok (name, some found)) : e.condition name = .ok found := by
  rw [Enclosed.condition, expr_eq_ok_iff.mpr read]
  simp [pure]

theorem assignment_of_nameAndExpr {e : Enclosed} {s : Assignment} (pure : s.value.assigns = false)
    (read : e.nameAndExpr = .ok ("set", some s.expr)) : e.assignment = .ok s := by
  rw [Enclosed.assignment, expr_eq_ok_iff.mpr read]
  simp [Assignment.expr, pure]

theorem condition_of_cut (named : isName name.toList) {e : Expr} (scripted : e.Scripted)
    (pure : e.assigns = false) (source : sourceOf ps = name.toList ++ behindBlank e)
    (cut : Cut ps tokens) : (⟨start, tokens, some stop⟩ : Enclosed).condition name = .ok e := by
  have each : ∀ found ∈ some e, found.Scripted := by
    rintro found ⟨⟩
    exact scripted
  exact condition_of_nameAndExpr pure (nameAndExpr_of_cut named each source cut)

theorem assignment_of_cut {s : Assignment} (scripted : s.expr.Scripted)
    (pure : s.value.assigns = false) (source : sourceOf ps = "set".toList ++ behindBlank s.expr)
    (cut : Cut ps tokens) : (⟨start, tokens, some stop⟩ : Enclosed).assignment = .ok s := by
  have each : ∀ found ∈ some s.expr, found.Scripted := by
    rintro found ⟨⟩
    exact scripted
  exact assignment_of_nameAndExpr pure (nameAndExpr_of_cut (by decide) each source cut)

end Enclosed
end Parley
