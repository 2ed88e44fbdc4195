import Parley.Proofs.Body.Scripts
import Parley.Proofs.Expr.Cutting

/-!
Expressions in commands as they are typed. A command is cut without regard to the texts in single
quotes of its expression, so not every expression can stand in one.
-/
namespace Parley

open Numeral Terminal

/-- Whether a character starts a comment or a marker of a command with the one behind it, as the
markers `>>` stand behind them. -/
def doubles (c : Char) (rest : List Char) : Bool :=
  ['/', '<', '>'].contains c && rest.head?.getD '>' == c

/-- Whether what is typed of an expression is not cut in a command: no comment and no marker starts
in it and every text in double quotes ends, if a text in single quotes counts for nothing. -/
def fitsCommand : List Char → Bool
  | [] => true
  | ['\\'] => false
  | '\\' :: _ :: rest => fitsCommand rest
  | '"' :: rest =>
      match quotedLength? '"' rest with
      | some n => fitsCommand (rest.drop n)
      | none => false
  | c :: rest => !doubles c rest && fitsCommand rest
  termination_by cs => cs.length
  decreasing_by all_goals simp only [List.length_drop, List.length_cons]; omega

/-- Whether a command is cut at the start of some text, as the markers `>>` stand behind it. -/
inductive Stuck : List Char → Prop
  | escape : Stuck ['\\']
  | quote {rest : List Char} (unclosed : quotedLength? '"' rest = none) : Stuck ('"' :: rest)
  | pair {c : Char} {rest : List Char} (twice : doubles c rest) : Stuck (c :: rest)

section Fits

variable {c : Char} {cs rest : List Char}

theorem Stuck.last (stuck : Stuck ('\\' :: rest)) : rest = [] := by
  cases stuck with
  | escape => rfl
  | pair twice =>
    simp [doubles] at twice

theorem doubles_iff :
    doubles c rest ↔ (c = '/' ∨ c = '<' ∨ c = '>') ∧ rest.head?.getD '>' = c := by
  simp [doubles]

theorem fitsCommand_cons (slash : c ≠ '\\') (quote : c ≠ '"') :
    fitsCommand (c :: rest) = (!doubles c rest && fitsCommand rest) := by
  rw [fitsCommand]
  · exact fun same _ => slash same
  · exact fun _ _ same _ => slash same
  · exact quote

theorem fitsCommand_calm (calm : ∀ c ∈ cs, isCalm c) :
    fitsCommand (cs ++ rest) = fitsCommand rest := by
  induction cs with
  | nil => rfl
  | cons c more ih =>
    obtain ⟨slash, quote, _, comment, opening, closing⟩ := isCalm_iff.mp (calm c List.mem_cons_self)
    have alone : doubles c (more ++ rest) = false := by
      rw [Bool.eq_false_iff, Ne, doubles_iff]
      rintro ⟨rfl | rfl | rfl, _⟩
      · exact comment rfl
      · exact opening rfl
      · exact closing rfl
    rw [List.cons_append, fitsCommand_cons slash quote, alone,
      ih fun d member => calm d (List.mem_cons_of_mem c member)]
    rfl

end Fits

namespace Tokenizer

theorem renders_escape {c : Char} (flat : isLineBreak c = false) (next : Option Char) :
    Renders ['\\', c] next := by
  refine ⟨[.plain ['\\', c] [c]], rfl, fun p member => ?_,
    fun inReply => .cons (reads_escaped c _) .nil⟩
  rw [List.mem_singleton.mp member]
  refine ⟨?_, List.cons_ne_nil _ _, fun _ => List.cons_ne_nil _ _, fun _ _ _ => rfl⟩
  intro d inside
  simp only [Piece.source, List.mem_cons, List.not_mem_nil, or_false] at inside
  rcases inside with rfl | rfl
  · rfl
  · exact flat

theorem renders_single {c : Char} {next : Option Char} (flat : isLineBreak c = false)
    (dollar : c ≠ '$') (slash : c ≠ '\\') (quote : c ≠ '"')
    (apart : c = '/' ∨ c = '<' ∨ c = '>' → next ≠ some c) : Renders [c] next :=
  ⟨plainPieces [c], rfl, inside_plain (by simpa using flat),
    fun _ => .cons (reads_single dollar slash quote apart) .nil⟩

/-- A sign of a variable stands for itself where no name follows it. -/
theorem renders_dollar {next : Option Char} (unnamed : ∀ c ∈ next, isNameStart c = false) :
    Renders ['$'] next := by
  refine ⟨plainPieces ['$'], rfl, inside_plain (by decide), fun _ => .cons ?_ .nil⟩
  refine ⟨'$', [], none, ['$'], rfl, fun rest head => ?_⟩
  have none : nameAt rest = [] := by
    cases rest with
    | nil => rfl
    | cons c more =>
      rw [nameAt, if_neg (by simp [unnamed c head.symm])]
  simp [step, plainStep, none]

/-- How far a command goes on with some text that the markers `>>` stand behind: to its end, or to
where the command is cut. -/
def Reaches (cs : List Char) : Prop :=
  ∃ front back, cs = front ++ back ∧ Renders front (back.head?.or (some '>')) ∧
    if fitsCommand cs then back = [] else Stuck back

theorem Reaches.stuck {cs : List Char} (stuck : Stuck cs) (cut : fitsCommand cs = false) :
    Reaches cs := by
  refine ⟨[], cs, rfl, ⟨[], rfl, by simp, fun _ => .nil⟩, ?_⟩
  rwa [cut]

/-- Whether a command goes on with a piece in front of the rest of some text. -/
structure GoesOn (piece rest : List Char) : Prop where
  nonempty : piece ≠ []
  renders : Renders piece (rest.head?.or (some '>'))
  same : fitsCommand (piece ++ rest) = fitsCommand rest

theorem GoesOn.reaches {piece rest : List Char} (goesOn : GoesOn piece rest)
    (reaches : Reaches rest) : Reaches (piece ++ rest) := by
  obtain ⟨front, back, rfl, later, ends⟩ := reaches
  refine ⟨piece ++ front, back, (List.append_assoc _ _ _).symm, ?_, ?_⟩
  · have renders := goesOn.renders
    rw [List.head?_append, Option.or_assoc] at renders
    exact renders.append later
  · rwa [goesOn.same]

theorem exists_goesOn_dollar (rest : List Char) :
    ∃ piece behind, '$' :: rest = piece ++ behind ∧ GoesOn piece behind := by
  by_cases unnamed : nameAt rest = []
  · have other : ∀ d ∈ rest.head?, isNameStart d = false := by
      rintro d head
      obtain ⟨more, rfl⟩ := List.head?_eq_some_iff.mp head
      rw [nameAt] at unnamed
      split at unnamed
      · cases unnamed
      · rename_i start
        exact Bool.eq_false_iff.mpr start
    exact ⟨['$'], rest, rfl, List.cons_ne_nil _ _, renders_dollar (forall_mem_or other rfl),
      fitsCommand_calm (by decide)⟩
  · obtain ⟨name, behind, rfl, _, named, ends⟩ := exists_nameAt unnamed
    obtain ⟨_, _, _, _, all⟩ := isName_iff.mp named
    refine ⟨'$' :: name, behind, rfl, List.cons_ne_nil _ _,
      renders_variable named (forall_mem_or ends rfl), fitsCommand_calm fun d member => ?_⟩
    rcases List.mem_cons.mp member with rfl | inside
    · rfl
    · exact isCalm_of_isNameChar (all d inside)

/-- A command is cut at the start of some text, or it goes on with a piece of it. -/
theorem stuck_or_goesOn {c : Char} {rest : List Char}
    (flat : ∀ d ∈ c :: rest, isLineBreak d = false) :
    (Stuck (c :: rest) ∧ fitsCommand (c :: rest) = false) ∨
      ∃ piece behind, c :: rest = piece ++ behind ∧ GoesOn piece behind := by
  by_cases slash : c = '\\'
  · subst slash
    cases rest with
    | nil => exact .inl ⟨.escape, by simp [fitsCommand]⟩
    | cons d more =>
      exact .inr ⟨['\\', d], more, rfl, List.cons_ne_nil _ _,
        renders_escape (flat d (by simp)) _, by simp [fitsCommand]⟩
  by_cases quote : c = '"'
  · subst quote
    cases found : quotedLength? '"' rest with
    | none => exact .inl ⟨.quote found, by simp [fitsCommand, found]⟩
    | some n =>
      obtain ⟨inner, behind, rfl, rfl, _, closed⟩ := exists_quoted found
      refine .inr ⟨'"' :: inner, behind, rfl, List.cons_ne_nil _ _,
        renders_quoted ?_ (fun d member => flat d (by simp [member])) _, ?_⟩
      · simpa using closed []
      · simp [fitsCommand, found]
  by_cases dollar : c = '$'
  · subst dollar
    exact .inr (exists_goesOn_dollar rest)
  by_cases twice : doubles c rest
  · refine .inl ⟨.pair twice, ?_⟩
    rw [fitsCommand_cons slash quote, twice]
    rfl
  · refine .inr ⟨[c], rest, rfl, List.cons_ne_nil _ _, ?_, ?_⟩
    · refine renders_single (flat c List.mem_cons_self) dollar slash quote fun sharp same => ?_
      refine twice (doubles_iff.mpr ⟨sharp, ?_⟩)
      rw [← Option.some_inj, ← same]
      cases rest.head? <;> rfl
    · rw [List.singleton_append, fitsCommand_cons slash quote, Bool.eq_false_iff.mpr twice]
      rfl

theorem reaches_of_flat {cs : List Char} (flat : ∀ c ∈ cs, isLineBreak c = false) :
    Reaches cs := by
  induction length : cs.length using Nat.strongRecOn generalizing cs with
  | ind n ih =>
    cases cs with
    | nil => exact ⟨[], [], rfl, ⟨[], rfl, by simp, fun _ => .nil⟩, by simp [fitsCommand]⟩
    | cons c rest =>
      rcases stuck_or_goesOn flat with ⟨stuck, cut⟩ | ⟨piece, behind, whole, goesOn⟩
      · exact .stuck stuck cut
      · rw [whole] at flat length ⊢
        have shorter : behind.length < n := by
          have := List.length_pos_iff.mpr goesOn.nonempty
          rw [List.length_append] at length
          omega
        exact goesOn.reaches
          (ih _ shorter (fun d member => flat d (List.mem_append_right _ member)) rfl)

end Tokenizer

open Tokenizer

/-! Commands that are not cut -/

theorem renders_of_fits {text : List Char} (flat : ∀ c ∈ text, isLineBreak c = false)
    (fits : fitsCommand text) : Renders text (some '>') := by
  obtain ⟨front, back, rfl, renders, ends⟩ := reaches_of_flat flat
  rw [fits] at ends
  obtain rfl : back = [] := ends
  rwa [List.append_nil]

/-- What is typed in front of the value of an assignment. -/
def assigning (name : String) (text : List Char) : List Char :=
  '$' :: (name.toList ++ ' ' :: '=' :: ' ' :: text)

theorem renders_assigning {name : String} (named : isName name.toList) {text : List Char}
    {next : Option Char} (renders : Renders text next) : Renders (assigning name text) next := by
  have sign : Renders [' ', '=', ' '] (text.head?.or next) :=
    renders_inner (by decide) (by decide) _
  have behind : Renders (' ' :: '=' :: ' ' :: text) next := sign.append renders
  have first : Renders ('$' :: name.toList) ((' ' :: '=' :: ' ' :: text).head?.or next) :=
    renders_variable named (by rintro c ⟨⟩; rfl)
  exact first.append behind

/-- A command that is typed is read from its name and what stands behind it. -/
theorem exists_typedCommand {keyword script : String} {typed : List Char}
    {holds : Enclosed → Prop} (named : isName keyword.toList) (renders : Renders typed (some '>'))
    (written : script.toList = '<' :: '<' :: (keyword.toList ++ ' ' :: typed ++ ['>', '>']))
    (read : ∀ {ps tokens start stop}, sourceOf ps = keyword.toList ++ ' ' :: typed →
      Cut ps tokens → holds ⟨start, tokens, some stop⟩) :
    ∃ inner, IsCommand keyword script holds inner := by
  obtain ⟨ps, source, blank, inside, legible⟩ := exists_typedPieces named renders
  refine ⟨_, ⟨inside, legible⟩, ?_, fun tokens start stop cut => ?_,
    fun tokens start stop cut => read source cut⟩
  · rw [sourceOf_enclose, source, written]
  · exact Enclosed.named_of_cut named blank inside cut _

theorem isNameChar_of_head {typed : List Char} :
    ∀ c ∈ (' ' :: typed).head?, isNameChar c = false := by
  rintro c ⟨⟩
  rfl

theorem Enclosed.nameAndExpr_of_typed {keyword : String} (named : isName keyword.toList)
    {typed : List Char} {e : Expr} (parsed : Expr.parseChars typed = .ok e) {ps : List Piece}
    {tokens : List Token} {start stop : Position}
    (source : sourceOf ps = keyword.toList ++ ' ' :: typed) (cut : Cut ps tokens) :
    (⟨start, tokens, some stop⟩ : Enclosed).nameAndExpr = .ok (keyword, some e) :=
  (nameAndExpr_eq_some_iff named isNameChar_of_head source cut).mpr
    (Expr.parseChars_blank.mpr parsed)

namespace Body

/-- A block of one clause with a text in it. -/
def choiceScript (text : String) : String := "<<if " ++ text ++ ">>x<<endif>>"

def setScript (name text : String) : String := "<<set $" ++ name ++ " = " ++ text ++ ">>"

/-- The body of a block of one clause with a text in it. -/
def choiceBody (e : Expr) : Body :=
  ⟨[.command (.choice [⟨e, ⟨[.text (.ofText "x")], []⟩⟩] none)], []⟩

def setBody (name : String) (e : Expr) : Body := ⟨[.command (.set ⟨name, e⟩)], []⟩

variable {dialogue text : String} {e : Expr}

theorem choice_of_renders (renders : Renders text.toList (some '>'))
    (parsed : Expr.parse text = .ok e) (pure : e.assigns = false) :
    ∃ uses, ofText dialogue standardCommands (choiceScript text) = .ok (choiceBody e, uses) := by
  have written : ("<<if " ++ text ++ ">>").toList =
      '<' :: '<' :: ("if".toList ++ ' ' :: text.toList ++ ['>', '>']) := by
    simp
  obtain ⟨inner, isIf⟩ := @exists_typedCommand "if" _ _ (·.condition "if" = .ok e) (by decide)
    renders written fun source cut => Enclosed.condition_of_nameAndExpr pure
      (Enclosed.nameAndExpr_of_typed (by decide) parsed source cut)
  obtain ⟨last, isEnd⟩ := exists_word "endif" (by decide)
  let ps := bodyPieces false (Template.ofText "x").atoms
  have readable : Atom.Readable (Template.ofText "x").atoms :=
    (Template.quotable_ofText (by decide)).readable
  have shown : (Template.ofText "x").toScript .body = "x" := by decide
  have said : Writes false ("x" ++ "<<endif>>").toList (ps ++ (enclose last ++ [])) := by
    rw [String.toList_append, ← shown]
    exact (writes_text readable).append (isEnd.writes writes_nil)
      fun _ _ => clear_of_letter rfl (by decide)
  have block : (⟨Segment.pushPieces [] ps, []⟩ : Body).trim = ⟨[.text (.ofText "x")], []⟩ := by
    rfl
  have run : (bodyReader dialogue standardCommands).Runs ⟨.empty, [], 1⟩
      (enclose inner ++ (ps ++ (enclose last ++ []))) ⟨choiceBody e, [], 1⟩ := by
    have ends := @runs_endif dialogue _ last ⟨Segment.pushPieces [] ps, []⟩ .empty [] 1 e [] isEnd
    rw [block] at ends
    exact (runs_if isIf).append ((runs_text textual_bodyPieces rfl).append (ends.append .nil))
  have writes : Writes false (choiceScript text).toList
      (enclose inner ++ (ps ++ (enclose last ++ []))) := by
    simpa [choiceScript, String.append_assoc] using isIf.writes said
  exact ofText_of_runs writes run

theorem set_of_renders {name : String} (named : isName name.toList)
    (renders : Renders text.toList (some '>')) (parsed : Expr.parse text = .ok e)
    (pure : e.assigns = false) :
    ∃ uses, ofText dialogue standardCommands (setScript name text) =
      .ok (setBody name e, uses) := by
  have written : (setScript name text).toList =
      '<' :: '<' :: ("set".toList ++ ' ' :: assigning name text.toList ++ ['>', '>']) := by
    simp [setScript, assigning]
  have parsed' : Expr.parseChars (assigning name text.toList) = .ok (.assign name e) :=
    (Expr.parseChars_assign named).mpr ⟨e, rfl, parsed⟩
  obtain ⟨inner, isSet⟩ := @exists_typedCommand "set" _ _ (·.assignment = .ok ⟨name, e⟩)
    (by decide) (renders_assigning named renders) written fun source cut =>
      Enclosed.assignment_of_nameAndExpr (s := ⟨name, e⟩) pure
        (Enclosed.nameAndExpr_of_typed (by decide) parsed' source cut)
  have writes : Writes false ((setScript name text).toList ++ []) (enclose inner ++ []) :=
    isSet.writes writes_nil
  have run : (bodyReader dialogue standardCommands).Runs ⟨.empty, [], 1⟩ (enclose inner ++ [])
      ⟨setBody name e, [], 1⟩ := (runs_set rfl isSet).append .nil
  rw [List.append_nil] at writes
  exact ofText_of_runs writes run

end Body

/-! Commands that are cut -/

namespace Tokenizer

/-- A text in double quotes ends in what is typed or not at all. -/
theorem quotedLength_of_quotedParts {cs : List Char} {parts : List Part} {n : Nat}
    (read : quotedParts? cs = some (parts, n)) (flat : '\n' ∉ cs) :
    quotedLength? '"' cs = some n := by
  fun_induction quotedParts? cs generalizing parts n with
  | case1 => cases read
  | case2 rest =>
    cases read
    rfl
  | case3 => cases read
  | case4 c more ih =>
    simp only [List.mem_cons, not_or] at flat
    obtain ⟨⟨others, m⟩, found, same⟩ := Option.map_eq_some_iff.mp read
    cases same
    rw [quotedLength?, if_neg (Ne.symm flat.2.1), ih found flat.2.2]
    rfl
  | case5 more name none =>
    rename_i ih
    rw [List.mem_cons, not_or] at flat
    obtain ⟨⟨others, m⟩, found, same⟩ := Option.map_eq_some_iff.mp read
    cases same
    rw [quotedLength_ordinary (by decide) (by decide), ih found flat.2]
    rfl
  | case6 more written some =>
    rename_i ih
    subst written
    obtain ⟨name, behind, rfl, same, _, _⟩ := exists_nameAt (mt List.isEmpty_iff.mpr some)
    rw [same, List.drop_left] at ih read
    simp only [List.mem_cons, List.mem_append, not_or] at flat
    obtain ⟨⟨others, m⟩, found, same'⟩ := Option.map_eq_some_iff.mp read
    cases same'
    rw [quotedLength_ordinary (by decide) (by decide), quotedLength_name (same ▸ mem_nameAt),
      ih found flat.2.2]
    rfl
  | case7 c more quote last slash dollar ih =>
    rw [List.mem_cons, not_or] at flat
    obtain ⟨⟨others, m⟩, found, same⟩ := Option.map_eq_some_iff.mp read
    cases same
    rw [quotedLength_ordinary (fun same => quote same) (ne_backslash last slash), ih found flat.2]
    rfl

theorem quotedParts_of_unclosed {cs behind : List Char} (unclosed : quotedLength? '"' cs = none)
    (flat : '\n' ∉ cs ++ behind) (unquoted : '"' ∉ behind) :
    quotedParts? (cs ++ behind) = none := by
  rw [Option.eq_none_iff_forall_ne_some]
  rintro ⟨parts, n⟩ read
  obtain ⟨inner, rest, same, rfl, ends, closed⟩ :=
    exists_quoted (quotedLength_of_quotedParts read flat)
  have part : ∃ more, cs = inner ++ more := by
    rcases List.append_eq_append_iff.mp same with ⟨more, rfl, rfl⟩ | ⟨more, rfl, _⟩
    · rcases List.eq_nil_or_concat' more with rfl | ⟨front, d, rfl⟩
      · exact ⟨[], by simp⟩
      · rw [← List.append_assoc, List.getLast?_concat] at ends
        cases ends
        exact (unquoted (by simp)).elim
    · exact ⟨more, rfl⟩
  obtain ⟨more, rfl⟩ := part
  rw [closed] at unclosed
  cases unclosed

end Tokenizer

theorem nameAndExpr_of_takes {dialogue keyword : String} {allowed : List String}
    {s s' : Body.Reading} {command : Enclosed} {t : Token}
    (keywords : keyword = "if" ∨ keyword = "set")
    (named : command.named = .ok (keyword, t, command))
    (takes : Body.Reading.Takes dialogue allowed s (.command command) s') :
    ∃ found, command.nameAndExpr = .ok (keyword, some found) := by
  have other {word : String} {u : Token} {e : Enclosed}
      (named' : command.named = .ok (word, u, e)) : keyword = word ∧ command = e := by
    rw [named] at named'
    cases named'
    exact ⟨rfl, rfl⟩
  cases takes with
  | set named' _ _ read =>
    obtain ⟨rfl, rfl⟩ := other named'
    obtain ⟨found, given, _⟩ := bind_eq_ok_iff.mp read
    exact ⟨found, Enclosed.expr_eq_ok_iff.mp given⟩
  | openChoice named' _ read =>
    obtain ⟨rfl, rfl⟩ := other named'
    obtain ⟨found, given, _⟩ := bind_eq_ok_iff.mp read
    exact ⟨found, Enclosed.expr_eq_ok_iff.mp given⟩
  | action named' | input named' | openRandom named' | nextChoice named' | otherwise named'
  | closeChoice named' | closeOtherwise named' | nextRandom named' | closeRandom named' =>
    obtain ⟨rfl, rfl⟩ := other named'
    exact absurd keywords (by decide)

/-- The first command of a script that is read has markers behind it and an expression in it. -/
theorem Body.nameAndExpr_of_first {dialogue keyword : String} {ps : List Piece}
    {tokens behind : List Token} {start : Position} {result : Body × List PointerUse}
    (keywords : keyword = "if" ∨ keyword = "set")
    (blank : ∀ p ∈ ps.head?, p = .plain [' '] [' '])
    (inside : ∀ p ∈ plainPieces keyword.toList ++ ps, p.Inside)
    (cut : Cut (plainPieces keyword.toList ++ ps) tokens)
    (ends : ∀ t ∈ behind.head?, t.kind = .commandEnd)
    (read : ofTokens dialogue standardCommands
      (⟨.commandStart, "<<", start⟩ :: (tokens ++ behind)) = .ok result) :
    ∃ stop found, behind.head?.map (·.position) = some stop ∧
      (⟨start, tokens, some stop⟩ : Enclosed).nameAndExpr = .ok (keyword, some found) := by
  have named : isName keyword.toList := by rcases keywords with rfl | rfl <;> decide
  have none : ∀ p ∈ plainPieces keyword.toList ++ ps, p.hasKind .commandEnd = false :=
    fun p member => (inside p member).inner _ (by decide) (by decide)
  have upTo : Enclosed.upTo .commandEnd start (tokens ++ behind) =
      ⟨start, tokens, behind.head?.map (·.position)⟩ := by
    have stops : ∀ t ∈ behind.head?, (t.kind != .commandEnd) = false := by
      intro t head
      rw [ends t head]
      rfl
    rw [Enclosed.upTo, takeWhile_append_of_stop (kind_of_cut cut (by decide) none) stops,
      dropWhile_append_of_stop (kind_of_cut cut (by decide) none) stops]
  obtain ⟨_, fold, _⟩ := bind_eq_ok_iff.mp read
  rw [Item.ofTokens] at fold
  obtain ⟨_, stepped, _⟩ := foldlM_cons_eq_ok_iff.mp fold
  dsimp only at stepped
  rw [upTo] at stepped
  obtain ⟨t, name⟩ := Enclosed.named_of_cut named blank inside cut (behind.head?.map (·.position))
  obtain ⟨found, given⟩ := nameAndExpr_of_takes keywords name (Reading.takes_of_step stepped)
  cases stop : behind.head?.map (·.position) with
  | some position => exact ⟨position, found, rfl, by rwa [stop] at given⟩
  | none =>
    rw [stop] at given
    cases given

/-- Where the front of a command can be read, the text typed in front of what it ends with is an
expression. -/
theorem Body.parsed_of_ofText {dialogue keyword : String} {typed rest : List Char} {c : Char}
    {result : Body × List PointerUse} (keywords : keyword = "if" ∨ keyword = "set")
    (renders : Renders typed (some c))
    (flat : ∀ d ∈ '<' :: '<' :: (keyword.toList ++ ' ' :: typed ++ c :: rest),
      isLineBreak d = false)
    (halts : step ⟨true, false⟩ c rest = .comment ∨
      (∃ cause, step ⟨true, false⟩ c rest = .defect cause) ∨
        step ⟨true, false⟩ c rest = .piece (some .commandEnd) [] 1 ⟨false, false⟩)
    (read : ofText dialogue standardCommands
      (String.ofList ('<' :: '<' :: (keyword.toList ++ ' ' :: typed ++ c :: rest))) = .ok result) :
    step ⟨true, false⟩ c rest = .piece (some .commandEnd) [] 1 ⟨false, false⟩ ∧
      ∃ found, Expr.parseChars typed = .ok found := by
  have named : isName keyword.toList := by rcases keywords with rfl | rfl <;> decide
  obtain ⟨ps, source, blank, inside, legible⟩ := exists_typedPieces named renders
  let front : List Piece := plainPieces keyword.toList ++ ps
  have filled : Filled front := fun p member => (inside p member).filled
  have cut := cut_assemble filled ⟨1, 1 + (Piece.mark .commandStart ['<', '<']).source.length⟩
  rw [ofText, readText_of_flat (List.cons_ne_nil _ _) flat, bind_eq_ok_iff] at read
  obtain ⟨tokens, lexed, accepted⟩ := read
  have legible' : Legible .initial (.mark .commandStart ['<', '<'] :: front) (some c)
      ⟨true, false⟩ := .cons (reads_commandStart _) (legible false)
  have whole : '<' :: '<' :: (keyword.toList ++ ' ' :: typed ++ c :: rest) =
      sourceOf (.mark .commandStart ['<', '<'] :: front) ++ c :: rest := by
    rw [sourceOf_cons, source]
    simp [Piece.source]
  rw [whole, pieces_append legible'] at lexed
  obtain ⟨ps', joined, rfl⟩ := map_eq_ok_iff.mp lexed
  obtain ⟨qs, behind, rfl⟩ := map_eq_ok_iff.mp joined
  rw [pieces] at behind
  rcases halts with comment | ⟨cause, defect⟩ | closing
  · -- the rest is a comment, so that no markers stand behind the command
    rw [comment] at behind
    cases behind
    rw [List.append_nil, join, assemble, ← List.append_nil (assemble _ _)] at accepted
    obtain ⟨_, _, stop, _⟩ := nameAndExpr_of_first keywords blank inside cut (by simp) accepted
    cases stop
  · rw [defect] at behind
    cases behind
  · rw [closing] at behind
    obtain ⟨others, _, rfl⟩ := map_eq_ok_iff.mp behind
    dsimp only at accepted
    rw [List.cons_append, join, join_append_mark, assemble] at accepted
    obtain ⟨position, divided⟩ := assemble_append (join front)
      (.mark .commandEnd (c :: rest.take 1) :: join others)
      ⟨1, 1 + (Piece.mark .commandStart ['<', '<']).source.length⟩
    dsimp only at accepted
    rw [divided, assemble] at accepted
    obtain ⟨stop, found, _, given⟩ :=
      nameAndExpr_of_first keywords blank inside cut (by rintro t ⟨⟩; rfl) accepted
    have ends : ∀ d ∈ (' ' :: typed).head?, isNameChar d = false := by
      rintro d ⟨⟩
      rfl
    exact ⟨closing, found, Expr.parseChars_blank.mp
      ((Enclosed.nameAndExpr_eq_some_iff named ends source cut).mp given)⟩

/-- What a tokenizer does where a command is cut. -/
theorem halts_of_stuck {c : Char} {rest after : List Char} (stuck : Stuck (c :: rest))
    (slash : c ≠ '\\') (flat : '\n' ∉ rest ++ '>' :: '>' :: after) (unquoted : '"' ∉ after) :
    let next := step ⟨true, false⟩ c (rest ++ '>' :: '>' :: after)
    next = .comment ∨ (∃ cause, next = .defect cause) ∨
      next = .piece (some .commandEnd) [] 1 ⟨false, false⟩ ∧ c = '>' ∧
        rest.head?.getD '>' = '>' := by
  cases stuck with
  | escape => exact (slash rfl).elim
  | quote unclosed =>
    have none := quotedParts_of_unclosed unclosed flat (by simpa using unquoted)
    exact .inr (.inl ⟨.openQuote, by simp [step, none]⟩)
  | pair twice =>
    obtain ⟨sharp, same⟩ := doubles_iff.mp twice
    have head : (rest ++ '>' :: '>' :: after).head? = some c := by
      rw [← same]
      cases rest <;> rfl
    rcases sharp with rfl | rfl | rfl
    · exact .inl (by simp [step, head])
    · exact .inr (.inl ⟨.commandInCommand, by simp [step, head]⟩)
    · exact .inr (.inr ⟨by simp [step, markStep, head], rfl, same⟩)

/-- A command that is read is not cut in its expression. -/
theorem Body.fits_of_ofText {dialogue keyword script : String} {lead text after : List Char}
    {e : Expr} {result : Body × List PointerUse} (keywords : keyword = "if" ∨ keyword = "set")
    (leads : ∀ front next, Renders front next → Renders (lead ++ front) next)
    (behind : ∀ front found, Expr.parseChars (lead ++ front) = .ok found →
      ∃ other, Expr.parseChars front = .ok other)
    (parsed : Expr.parseChars text = .ok e) (unquoted : '"' ∉ after)
    (flat : ∀ c ∈ lead ++ text ++ after, isLineBreak c = false)
    (written : script.toList =
      '<' :: '<' :: (keyword.toList ++ ' ' :: (lead ++ text) ++ '>' :: '>' :: after))
    (read : ofText dialogue standardCommands script = .ok result) : fitsCommand text := by
  rw [← String.ofList_toList (s := script), written] at read
  have word : ∀ c ∈ keyword.toList, isLineBreak c = false := by
    rcases keywords with rfl | rfl <;> decide
  simp only [List.forall_mem_append] at flat
  obtain ⟨⟨leadFlat, textFlat⟩, afterFlat⟩ := flat
  have whole : ∀ c ∈ '<' :: '<' ::
      (keyword.toList ++ ' ' :: (lead ++ text) ++ '>' :: '>' :: after), isLineBreak c = false := by
    simp only [List.forall_mem_cons, List.forall_mem_append]
    exact ⟨rfl, rfl, ⟨word, rfl, leadFlat, textFlat⟩, rfl, rfl, afterFlat⟩
  by_contra cut
  obtain ⟨front, back, rfl, renders, stuck⟩ := reaches_of_flat textFlat
  rw [if_neg cut] at stuck
  obtain ⟨found, cuts, _⟩ := Expr.parseChars_iff.mp parsed
  cases back with
  | nil => cases stuck
  | cons c rest =>
    have slash : c ≠ '\\' := by
      rintro rfl
      obtain rfl := stuck.last
      exact cuts.getLast?_ne List.getLast?_concat
    have same : keyword.toList ++ ' ' :: (lead ++ (front ++ c :: rest)) ++ '>' :: '>' :: after =
        keyword.toList ++ ' ' :: (lead ++ front) ++ c :: (rest ++ '>' :: '>' :: after) := by
      simp
    rw [same] at read whole
    have feedless : '\n' ∉ rest ++ '>' :: '>' :: after := by
      intro member
      have inner := whole '\n' (List.mem_cons_of_mem _ (List.mem_cons_of_mem _
        (List.mem_append_right _ (List.mem_cons_of_mem _ member))))
      cases inner
    have halts := halts_of_stuck stuck slash feedless unquoted
    obtain ⟨closing, other, accepted⟩ := parsed_of_ofText keywords (leads front _ renders) whole
      (halts.imp_right (Or.imp_right And.left)) read
    obtain ⟨found', front'⟩ := behind _ _ accepted
    rcases halts with comment | ⟨cause, defect⟩ | ⟨_, rfl, twice⟩
    · rw [comment] at closing
      cases closing
    · rw [defect] at closing
      cases closing
    · exact Expr.parseChars_of_closing twice parsed found' front'

/-! Expressions without texts in single quotes -/

/-- Whether no text of an expression is written in single quotes. -/
def QuotesDouble (text : String) : Prop :=
  ∀ l ∈ (Lexemes.ofText text).lexemes, l.text.toList.head? ≠ some '\''

theorem fitsCommand_of_cuts {expected : Expected} {cs : List Char}
    {found : List (Terminal × List Char)} (cuts : Cuts expected cs found)
    (beside : (found.map Prod.fst).IsChain Expr.Beside)
    (ends : ∀ t ∈ (found.map Prod.fst).getLast?, t.expected = .operator)
    (double : ∀ piece ∈ found, piece.2.head? ≠ some '\'') : fitsCommand cs := by
  induction cuts with
  | nil => simp [fitsCommand]
  | @blank _ c rest _ blank _ ih =>
    have calm : ∀ d ∈ [c], isCalm d := by
      simp only [isExprBlank, Bool.or_eq_true, beq_iff_eq] at blank
      rcases blank with (((rfl | rfl) | rfl) | rfl) | rfl <;> decide
    exact (@fitsCommand_calm [c] rest calm).trans (ih beside ends double)
  | @terminal _ c more rest t found filled scanned later ih =>
    have fits : fitsCommand rest := by
      refine ih (List.isChain_cons.mp beside).2 (fun u last => ends u ?_)
        fun piece member => double piece (List.mem_cons_of_mem _ member)
      rw [List.map_cons, List.getLast?_cons, last]
      rfl
    have unquoted := double _ List.mem_cons_self
    have shape := shape_of_scan scanned
    rw [← List.cons_append]
    generalize text : c :: more = cs at shape unquoted
    cases shape with
    | @quoted _ quote inner mark _ closed =>
      have mark : quote = '"' := mark.resolve_right fun same => unquoted (congrArg some same)
      subst mark
      simp [fitsCommand, closed, fits]
    | calm all => rwa [fitsCommand_calm all]
    | @sharp op d tail other sharp equals =>
      obtain ⟨rfl, rfl⟩ := List.cons.inj text
      have slash : c ≠ '\\' := by rcases sharp with rfl | rfl | rfl <;> decide
      have quote : c ≠ '"' := by rcases sharp with rfl | rfl | rfl <;> decide
      have single : doubles c (more ++ rest) = false := by
        rw [Bool.eq_false_iff, Ne, doubles_iff]
        rintro ⟨_, same⟩
        rcases equals with rfl | rfl
        · obtain ⟨d, others, rfl, plain⟩ := Expr.exists_behind_operator later beside ends
          obtain rfl : d = c := same
          exact plain sharp
        · obtain rfl : '=' = c := same
          revert sharp
          decide
      rw [List.cons_append, fitsCommand_cons slash quote, single]
      rcases equals with rfl | rfl
      · exact fits
      · exact (@fitsCommand_calm ['='] rest (by decide)).trans fits

namespace Body

/-- Whether a script is read as a body if something is so, and refused if it is not. -/
def ReadsIf (so : Bool) (dialogue script : String) (b : Body) : Prop :=
  if so then ∃ uses, ofText dialogue standardCommands script = .ok (b, uses)
  else ∃ error, ofText dialogue standardCommands script = .error error

variable {dialogue text : String} {e : Expr}

theorem readsIf_of {so : Bool} {script : String} {b : Body}
    (read : so → ∃ uses, ofText dialogue standardCommands script = .ok (b, uses))
    (only : ∀ result, ofText dialogue standardCommands script = .ok result → so) :
    ReadsIf so dialogue script b := by
  cases so with
  | true => exact read rfl
  | false =>
    cases found : ofText dialogue standardCommands script with
    | ok result => cases only result found
    | error error => exact ⟨error, found⟩

theorem choice_readsIf (parsed : Expr.parse text = .ok e) (pure : e.assigns = false)
    (flat : ∀ c ∈ text.toList, isLineBreak c = false) :
    ReadsIf (fitsCommand text.toList) dialogue (choiceScript text) (choiceBody e) := by
  refine readsIf_of (fun fits => choice_of_renders (renders_of_fits flat fits) parsed pure)
    fun result read => ?_
  refine @fits_of_ofText dialogue "if" _ [] text.toList "x<<endif>>".toList e result (.inl rfl)
    (fun _ _ => id) (fun _ found accepted => ⟨found, accepted⟩) parsed (by decide) ?_ ?_ read
  · simp only [List.nil_append, List.forall_mem_append]
    exact ⟨flat, by decide⟩
  · simp [choiceScript]

theorem set_readsIf {name : String} (named : isName name.toList)
    (parsed : Expr.parse text = .ok e) (pure : e.assigns = false)
    (flat : ∀ c ∈ text.toList, isLineBreak c = false) :
    ReadsIf (fitsCommand text.toList) dialogue (setScript name text) (setBody name e) := by
  refine readsIf_of (fun fits => set_of_renders named (renders_of_fits flat fits) parsed pure)
    fun result read => ?_
  have lead (front : List Char) : assigning name [] ++ front = assigning name front := by
    simp [assigning]
  refine @fits_of_ofText dialogue "set" _ (assigning name []) text.toList [] e result (.inr rfl)
    (fun front next renders => ?_) (fun front found accepted => ?_) parsed (by simp) ?_ ?_ read
  · rw [lead]
    exact renders_assigning named renders
  · rw [lead] at accepted
    obtain ⟨value, _, inner⟩ := (Expr.parseChars_assign named).mp accepted
    exact ⟨value, inner⟩
  · obtain ⟨_, _, _, _, all⟩ := isName_iff.mp named
    simp only [assigning, List.append_nil, List.cons_append, List.append_assoc,
      List.forall_mem_cons, List.forall_mem_append]
    exact ⟨rfl, fun c member => isLineBreak_of_isNameChar (all c member), rfl, rfl, rfl,
      by simpa using flat⟩
  · simp [setScript, assigning]

theorem fitsCommand_of_quotesDouble (parsed : Expr.parse text = .ok e)
    (double : QuotesDouble text) : fitsCommand text.toList := by
  obtain ⟨⟨stop, derives⟩, _⟩ := Expr.parse_eq_ok_iff.mp parsed
  have cuts : Cuts .operand text.toList ((Lexemes.ofText text).lexemes.map Lexeme.piece) :=
    (cuts_iff .start).mpr ⟨_, by rw [← stop]; rfl, rfl⟩
  have terminals : ((Lexemes.ofText text).lexemes.map Lexeme.piece).map Prod.fst =
      (Lexemes.ofText text).terminals := by
    rw [List.map_map]
    rfl
  have row := Expr.row_of_derives derives
  rw [← terminals] at row
  refine fitsCommand_of_cuts cuts row.beside row.ends fun piece member => ?_
  obtain ⟨l, here, rfl⟩ := List.mem_map.mp member
  exact double l here

/-- An expression on one line is read from a block and from an assignment that it is typed in if it
fits a command, as it does without texts in single quotes; otherwise both are refused. -/
theorem readsIf_fitsCommand (parsed : Expr.parse text = .ok e) (pure : e.assigns = false)
    (flat : ∀ c ∈ text.toList, isLineBreak c = false) (dialogue : String) :
    ReadsIf (fitsCommand text.toList) dialogue (choiceScript text) (choiceBody e) ∧
      (∀ name : String, isName name.toList →
        ReadsIf (fitsCommand text.toList) dialogue (setScript name text) (setBody name e)) ∧
          (QuotesDouble text → fitsCommand text.toList) :=
  ⟨choice_readsIf parsed pure flat, fun _ named => set_readsIf named parsed pure flat,
    fitsCommand_of_quotesDouble parsed⟩

theorem readsIf_fitsCommand_of_quotient :
    ∃ e, Expr.parse "$n/2 >= 1 && '$5' != \"a//b\"" = .ok e ∧ e.assigns = false ∧
      (∃ uses, ofText "d" standardCommands (choiceScript "$n/2 >= 1 && '$5' != \"a//b\"") =
        .ok (choiceBody e, uses)) ∧
      (∃ uses, ofText "d" standardCommands (setScript "b" "$n/2 >= 1 && '$5' != \"a//b\"") =
        .ok (setBody "b" e, uses)) ∧
      QuotesDouble "$n / 2" ∧ fitsCommand "$n / 2".toList := by
  have read : (Expr.parse "$n/2 >= 1 && '$5' != \"a//b\"").toOption.map (·.assigns) =
      some false := by
    decide +kernel
  have read' : (Expr.parse "$n / 2").toOption.map (·.assigns) = some false := by decide +kernel
  obtain ⟨e, accepted, pure⟩ := Option.map_eq_some_iff.mp read
  obtain ⟨e', accepted', pure'⟩ := Option.map_eq_some_iff.mp read'
  have parsed := toOption_eq_some_iff.mp accepted
  obtain ⟨choice, set, _⟩ := readsIf_fitsCommand parsed pure (by decide) "d"
  obtain ⟨_, _, fits⟩ :=
    readsIf_fitsCommand (toOption_eq_some_iff.mp accepted') pure' (by decide) "d"
  have double : QuotesDouble "$n / 2" := by
    unfold QuotesDouble
    decide +kernel
  have reads : fitsCommand "$n/2 >= 1 && '$5' != \"a//b\"".toList = true := by decide +kernel
  rw [reads] at choice set
  exact ⟨e, parsed, pure, choice, set "b" (by decide), double, fits double⟩

/-- A text in single quotes in which the tokenizer finds a comment. -/
theorem comment_in_single_quotes_is_refused :
    ∃ e, Expr.parse "'//'" = .ok e ∧ e.assigns = false ∧
      (∀ c ∈ "'//'".toList, isLineBreak c = false) ∧
        ∃ error, ofText "d" standardCommands (choiceScript "'//'") = .error error := by
  have read : (Expr.parse "'//'").toOption.map (·.assigns) = some false := by decide +kernel
  obtain ⟨e, accepted, pure⟩ := Option.map_eq_some_iff.mp read
  have refused : (ofText "d" standardCommands (choiceScript "'//'")).toOption.isNone := by
    decide +kernel
  refine ⟨e, toOption_eq_some_iff.mp accepted, pure, by decide, ?_⟩
  cases found : ofText "d" standardCommands (choiceScript "'//'") with
  | ok result =>
    rw [found] at refused
    cases refused
  | error error => exact ⟨error, rfl⟩

end Body

end Parley
