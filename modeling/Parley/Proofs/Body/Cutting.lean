import Parley.Body.Item
import Parley.Proofs.Body.Pieces
import Parley.Proofs.Template.Atoms

/-!
From pieces to items. However the text of a script is divided into tokens, its items say the same:
what is made of all of them is made of the pieces one after the other.
-/
namespace Parley

def Content.atoms : Content → List Atom
  | .text value => value.toList.map .char
  | .var name => [.var name]
  | _ => []

def Content.isTextual : Content → Bool
  | .text _ | .var _ => true
  | _ => false

theorem Token.isText_iff {t : Token} : t.isText ↔ t.content.isTextual := by
  unfold Token.isText Token.kind
  cases t.content <;> simp [Content.kind, Content.isTextual]

theorem Item.atoms_template (tokens : List Token) :
    (Item.template tokens).atoms = tokens.flatMap (·.content.atoms) := by
  rw [Item.template, Template.atoms_ofParts]
  induction tokens with
  | nil => rfl
  | cons t rest ih =>
    rw [List.flatMap_cons, ← ih, List.filterMap_cons]
    cases t.content <;> simp [Content.atoms, Part.atoms]

/-- Text tokens in front of others are one item. -/
theorem Item.ofTokens_text {t : Token} {more : List Token} (text : t.isText) :
    ofTokens (t :: more) = .text (t :: more.takeWhile Token.isText) ::
      ofTokens (more.dropWhile Token.isText) := by
  rw [Token.isText_iff] at text
  cases content : t.content with
  | text value => simp only [ofTokens, content]
  | var name => simp only [ofTokens, content]
  | _ => rw [content] at text; cases text

namespace Template

/-- The template of some atoms. -/
def ofAtoms (as : List Atom) : Template :=
  .ofParts (as.map fun
    | .char c => .literal (String.ofList [c])
    | .var name => .var name)

@[simp] theorem atoms_ofAtoms (as : List Atom) : (ofAtoms as).atoms = as := by
  rw [ofAtoms, atoms_ofParts]
  induction as with
  | nil => rfl
  | cons a rest ih => cases a <;> simpa [Part.atoms] using ih

theorem ofAtoms_append (as bs : List Atom) : ofAtoms (as ++ bs) = ofAtoms as ++ ofAtoms bs := by
  apply eq_of_atoms
  rw [atoms_append, atoms_ofAtoms, atoms_ofAtoms, atoms_ofAtoms]

end Template

namespace Tokenizer

namespace Piece

def atoms : Piece → List Atom
  | plain _ value => value.map .char
  | mark content _ => content.atoms

/-- Whether a piece belongs to text. -/
def isTextual : Piece → Bool
  | plain .. => true
  | mark content _ => content.isTextual

/-- Whether a piece is a marker of a kind. -/
def hasKind (kind : TokenKind) : Piece → Bool
  | plain .. => false
  | mark content _ => content.kind == kind

end Piece

theorem atoms_of_plain {run : List Piece} (plain : ∀ p ∈ run, p.isPlain) :
    run.flatMap Piece.atoms = (run.flatMap Piece.value).map .char := by
  induction run with
  | nil => rfl
  | cons p rest ih =>
    have later := ih fun q inside => plain q (List.mem_cons_of_mem p inside)
    cases p with
    | plain source value => simp [Piece.atoms, Piece.value, later]
    | mark content source => cases plain _ List.mem_cons_self

/-- A marker divides the tokens where it divides the pieces. -/
theorem cut_append_mark {ps qs : List Piece} {content : Content} {source : List Char}
    {tokens : List Token} (cut : Cut (ps ++ .mark content source :: qs) tokens) :
    ∃ before position behind,
      tokens = before ++ ⟨content, String.ofList source, position⟩ :: behind ∧
        Cut ps before ∧ Cut qs behind := by
  generalize whole : ps ++ .mark content source :: qs = all at cut
  induction cut generalizing ps with
  | nil => simp at whole
  | @mark content' source' position rest tokens later ih =>
    cases ps with
    | nil =>
      cases whole
      exact ⟨[], position, tokens, rfl, .nil, later⟩
    | cons p more =>
      cases whole
      obtain ⟨before, place, behind, rfl, first, second⟩ := ih rfl
      exact ⟨_ :: before, place, behind, rfl, .mark first, second⟩
  | @text all run rest value source' position tokens split plain value_eq source_eq some stops later
    ih =>
    subst split
    rcases List.append_eq_append_iff.mp whole with ⟨more, rfl, same⟩ | ⟨more, rfl, same⟩
    · cases more with
      | nil =>
        rw [List.nil_append] at same
        obtain ⟨before, place, behind, rfl, first, second⟩ := @ih [] same
        refine ⟨_ :: before, place, behind, rfl, ?_, second⟩
        rw [cut_nil first]
        rw [List.append_nil] at plain value_eq source_eq
        exact .text (List.append_nil _).symm plain value_eq source_eq some (.inl (by simp)) .nil
      | cons p more =>
        cases same
        cases plain (.mark content source) (by simp)
    · obtain ⟨before, place, behind, rfl, first, second⟩ := ih same.symm
      refine ⟨_ :: before, place, behind, rfl, ?_, second⟩
      refine .text rfl plain value_eq source_eq some ?_ first
      rcases stops with mark | isBreak
      · refine .inl fun p head => mark p ?_
        cases more with
        | nil => cases head
        | cons q others => rw [same]; exact head
      · exact .inr isBreak

theorem cut_mark {qs : List Piece} {content : Content} {source : List Char} {tokens : List Token}
    (cut : Cut (.mark content source :: qs) tokens) :
    ∃ position behind, tokens = ⟨content, String.ofList source, position⟩ :: behind ∧
      Cut qs behind := by
  obtain ⟨before, position, behind, rfl, first, second⟩ := @cut_append_mark [] _ _ _ _ cut
  rw [cut_nil first]
  exact ⟨position, behind, rfl, second⟩

/-- A stretch of text in which no line ends, between marks, is one token. -/
theorem cut_run {run rest : List Piece} {tokens : List Token}
    (nonempty : run.flatMap Piece.value ≠ [])
    (plain : ∀ p ∈ run, p.isPlain) (inner : ∀ p ∈ run, ¬p.IsBreak)
    (stops : ∀ p ∈ rest.head?, p.isPlain = false) (cut : Cut (run ++ rest) tokens) :
    ∃ position behind, tokens = ⟨.text (String.ofList (run.flatMap Piece.value)),
      String.ofList (sourceOf run), position⟩ :: behind ∧ Cut rest behind := by
  have someRun : run ≠ [] := by
    rintro rfl
    exact nonempty rfl
  generalize whole : run ++ rest = all at cut
  cases cut with
  | nil => simp [someRun] at whole
  | mark later =>
    cases run with
    | nil => exact (someRun rfl).elim
    | cons p more =>
      cases whole
      cases plain _ List.mem_cons_self
  | @text _ run' rest' value source position tokens split plain' value_eq source_eq some stops'
    later =>
    rcases List.append_eq_append_iff.mp (whole.trans split) with
      ⟨more, rfl, same⟩ | ⟨more, rfl, same⟩
    · cases more with
      | nil =>
        rw [List.nil_append] at same
        subst same
        rw [List.append_nil] at value_eq source_eq
        exact ⟨position, tokens, by rw [value_eq, source_eq], later⟩
      | cons p more =>
        have mark := stops p (by rw [same]; rfl)
        rw [plain' p (by simp)] at mark
        cases mark
    · cases more with
      | nil =>
        rw [List.nil_append] at same
        subst same
        rw [List.append_nil]
        exact ⟨position, tokens, by rw [value_eq, source_eq], later⟩
      | cons p more =>
        rcases stops' with mark | ⟨front, last, rfl, isBreak⟩
        · have contrary := mark p (by rw [same]; rfl)
          rw [plain p (by simp)] at contrary
          cases contrary
        · exact (inner last (by simp) isBreak).elim

/-- The tokens of some pieces are text or their marks. -/
theorem kind_of_cut {ps : List Piece} {tokens : List Token} (cut : Cut ps tokens) {kind : TokenKind}
    (other : kind ≠ .text) (none : ∀ p ∈ ps, p.hasKind kind = false) :
    ∀ t ∈ tokens, (t.kind != kind) = true := by
  induction cut with
  | nil => simp
  | mark later ih =>
    intro t member
    rcases List.mem_cons.mp member with rfl | inside
    · exact bne_iff_ne.mpr (beq_eq_false_iff_ne.mp (none _ List.mem_cons_self))
    · exact ih (fun p there => none p (List.mem_cons_of_mem _ there)) t inside
  | text split _ _ _ _ _ later ih =>
    subst split
    intro t member
    rcases List.mem_cons.mp member with rfl | inside
    · rw [bne_iff_ne]
      exact other.symm
    · exact ih (fun p there => none p (List.mem_append_right _ there)) t inside

/-- Tokens of text in front are text in the pieces. -/
theorem cut_textual {ps : List Piece} {run others : List Token} (cut : Cut ps (run ++ others))
    (textual : ∀ t ∈ run, t.isText) :
    ∃ first second, ps = first ++ second ∧ (run ≠ [] → first ≠ []) ∧ (∀ p ∈ first, p.isTextual) ∧
      first.flatMap Piece.atoms = run.flatMap (·.content.atoms) ∧ Cut second others := by
  induction run generalizing ps with
  | nil => exact ⟨[], ps, rfl, fun some => (some rfl).elim, by simp, rfl, cut⟩
  | cons t more ih =>
    have text := Token.isText_iff.mp (textual t List.mem_cons_self)
    have moreText : ∀ u ∈ more, u.isText := fun u inside =>
      textual u (List.mem_cons_of_mem t inside)
    generalize whole : t :: more ++ others = tokens at cut
    cases cut with
    | nil => cases whole
    | @mark content source _ _ _ later =>
      cases whole
      obtain ⟨first, second, rfl, _, all, same, cut⟩ := ih later moreText
      refine ⟨.mark content source :: first, second, rfl, fun _ => List.cons_ne_nil _ _, ?_, ?_,
        cut⟩
      · intro p member
        rcases List.mem_cons.mp member with rfl | inside
        · exact text
        · exact all p inside
      · rw [List.flatMap_cons, List.flatMap_cons, same]
        rfl
    | @text _ run _ value source _ _ split plain value_eq _ some _ later =>
      cases whole
      obtain ⟨first, second, rfl, _, all, same, cut⟩ := ih later moreText
      refine ⟨run ++ first, second, by rw [split, List.append_assoc], fun _ none => ?_, ?_, ?_, cut⟩
      · rw [(List.append_eq_nil_iff.mp none).1] at value_eq
        exact some value_eq.symm
      · intro p member
        rcases List.mem_append.mp member with here | inside
        · cases p with
          | plain => rfl
          | mark => cases plain _ here
        · exact all p inside
      · rw [List.flatMap_append, List.flatMap_cons, same, atoms_of_plain plain, value_eq]
        simp [Content.atoms]

end Tokenizer

/-- What is enclosed goes up to the first token that closes it. -/
theorem Enclosed.upTo_closing {kind : TokenKind} {start : Position} {inside behind : List Token}
    {t : Token} (inner : ∀ u ∈ inside, (u.kind != kind) = true) (closes : t.kind = kind) :
    upTo kind start (inside ++ t :: behind) = ⟨start, inside, some t.position⟩ ∧
      Token.behind kind (inside ++ t :: behind) = behind := by
  have stop : ∀ u ∈ (t :: behind).head?, (u.kind != kind) = false := by
    rintro u ⟨⟩
    simp [closes]
  constructor
  · rw [upTo, takeWhile_append_of_stop inner stop, dropWhile_append_of_stop inner stop]
    rfl
  · rw [Token.behind, dropWhile_append_of_stop inner stop]
    rfl

open Tokenizer

/-- Something that takes items one after the other, text always as if it came in smaller parts. -/
structure Reader (σ : Type) where
  step : σ → Item → Except ScriptError σ
  say : σ → Template → Option σ
  step_text : ∀ s tokens s', say s (Item.template tokens) = some s' → step s (.text tokens) = .ok s'
  say_append : ∀ s t u, say s (t ++ u) = (say s t).bind (say · u)

namespace Reader

variable {σ : Type}

/-- How a reader gets through some pieces, if it is told what each command and each reply in them
does to it. -/
inductive Runs (r : Reader σ) : σ → List Piece → σ → Prop
  | nil {s : σ} : Runs r s [] s
  | text {s mid s' : σ} {p : Piece} {rest : List Piece} (textual : p.isTextual)
      (said : r.say s (.ofAtoms p.atoms) = some mid) (later : Runs r mid rest s') :
      Runs r s (p :: rest) s'
  | command {s mid s' : σ} {inner rest : List Piece} {opening closing : List Char}
      (plain : ∀ p ∈ inner, p.hasKind .commandEnd = false)
      (taken : ∀ tokens start stop, Cut inner tokens →
        r.step s (.command ⟨start, tokens, some stop⟩) = .ok mid)
      (later : Runs r mid rest s') :
      Runs r s (.mark .commandStart opening :: (inner ++ .mark .commandEnd closing :: rest)) s'
  | reply {s mid s' : σ} {inner rest : List Piece} {opening closing : List Char}
      (plain : ∀ p ∈ inner, p.hasKind .replyEnd = false)
      (taken : ∀ tokens start stop, Cut inner tokens →
        r.step s (.reply ⟨start, tokens, some stop⟩) = .ok mid)
      (later : Runs r mid rest s') :
      Runs r s (.mark .replyStart opening :: (inner ++ .mark .replyEnd closing :: rest)) s'

variable {r : Reader σ}

theorem Runs.append {s mid s' : σ} {ps qs : List Piece} (first : Runs r s ps mid)
    (second : Runs r mid qs s') : Runs r s (ps ++ qs) s' := by
  induction first with
  | nil => exact second
  | text textual said _ ih => exact .text textual said (ih second)
  | command plain taken _ ih =>
    rw [List.cons_append, List.append_assoc]
    exact .command plain taken (ih second)
  | reply plain taken _ ih =>
    rw [List.cons_append, List.append_assoc]
    exact .reply plain taken (ih second)

theorem head_textual {p : Piece} {rest : List Piece} {tokens : List Token} (textual : p.isTextual)
    (cut : Cut (p :: rest) tokens) : ∃ t more, tokens = t :: more ∧ t.isText := by
  cases cut with
  | mark later => exact ⟨_, _, rfl, Token.isText_iff.mpr textual⟩
  | text _ _ _ _ _ _ later => exact ⟨_, _, rfl, rfl⟩

/-- Text that a reader gets through piece by piece it takes as a whole. -/
theorem say_of_runs {s s' : σ} {first second : List Piece} (some : first ≠ [])
    (textual : ∀ p ∈ first, p.isTextual) (runs : Runs r s (first ++ second) s') :
    ∃ mid, r.say s (.ofAtoms (first.flatMap Piece.atoms)) = .some mid ∧ Runs r mid second s' := by
  induction first generalizing s with
  | nil => exact (some rfl).elim
  | cons p rest ih =>
    have here := textual p List.mem_cons_self
    generalize whole : p :: rest ++ second = ps at runs
    cases runs with
    | nil => cases whole
    | command | reply =>
      rw [(List.cons.inj whole).1] at here
      cases here
    | text _ said later =>
      cases whole
      by_cases last : rest = []
      · subst last
        exact ⟨_, by simpa using said, later⟩
      · obtain ⟨mid, more, behind⟩ :=
          ih last (fun q inside => textual q (List.mem_cons_of_mem p inside)) later
        refine ⟨mid, ?_, behind⟩
        rw [List.flatMap_cons, Template.ofAtoms_append, r.say_append, said]
        exact more

/-- What stands between two marks is enclosed by them, up to the first mark that closes it. -/
theorem enclosed_of_cut {first last : Content} {opening closing : List Char}
    {inner rest : List Piece}
    {tokens : List Token} {kind : TokenKind} (other : kind ≠ .text)
    (plain : ∀ p ∈ inner, p.hasKind kind = false)
    (cut : Cut (.mark first opening :: (inner ++ .mark last closing :: rest)) tokens)
    (closes : last.kind = kind) :
    ∃ start inside stop behind, Cut inner inside ∧ Cut rest behind ∧ behind.length < tokens.length ∧
      ∃ more, tokens = ⟨first, String.ofList opening, start⟩ :: more ∧
        Enclosed.upTo kind start more = ⟨start, inside, some stop⟩ ∧
          Token.behind kind more = behind := by
  obtain ⟨start, tail, rfl, within⟩ := cut_mark cut
  obtain ⟨inside, stop, behind, rfl, here, later⟩ := cut_append_mark within
  obtain ⟨enclosed, after⟩ := @Enclosed.upTo_closing kind start inside behind
    ⟨last, String.ofList closing, stop⟩ (kind_of_cut here other plain) closes
  refine ⟨start, inside, stop, behind, here, later, ?_, _, rfl, enclosed, after⟩
  rw [List.length_cons, List.length_append, List.length_cons]
  omega

/-- A reader gets through the items of tokens as it gets through the pieces that the tokens are cut
from. -/
theorem fold_of_runs {s s' : σ} {ps : List Piece} {tokens : List Token} (runs : Runs r s ps s')
    (cut : Cut ps tokens) : (Item.ofTokens tokens).foldlM r.step s = .ok s' := by
  -- on how many tokens are left, as one item takes many of them
  induction length : tokens.length using Nat.strongRecOn generalizing s ps tokens with
  | ind n ih =>
    subst length
    cases runs with
    | nil =>
      rw [cut_nil cut, Item.ofTokens]
      rfl
    | @command _ mid _ inner rest opening closing plain taken later =>
      obtain ⟨start, inside, stop, behind, here, second, shorter, more, rfl, enclosed, after⟩ :=
        enclosed_of_cut (by decide) plain cut rfl
      rw [Item.ofTokens]
      simp only [enclosed, after]
      exact foldlM_cons_eq_ok_iff.mpr ⟨mid, taken _ _ _ here, ih _ shorter later second rfl⟩
    | @reply _ mid _ inner rest opening closing plain taken later =>
      obtain ⟨start, inside, stop, behind, here, second, shorter, more, rfl, enclosed, after⟩ :=
        enclosed_of_cut (by decide) plain cut rfl
      rw [Item.ofTokens]
      simp only [enclosed, after]
      exact foldlM_cons_eq_ok_iff.mpr ⟨mid, taken _ _ _ here, ih _ shorter later second rfl⟩
    | @text _ mid _ p rest textual said later =>
      obtain ⟨t, more, rfl, text⟩ := head_textual textual cut
      have runs : Runs r s (p :: rest) s' := .text textual said later
      -- an item is a whole run of text, of which the reader takes one piece after the other
      have split : t :: more = (t :: more.takeWhile Token.isText) ++
          more.dropWhile Token.isText := by
        rw [List.cons_append, List.takeWhile_append_dropWhile]
      have all : ∀ u ∈ t :: more.takeWhile Token.isText, u.isText := by
        intro u member
        rcases List.mem_cons.mp member with rfl | inside
        · exact text
        · exact List.all_eq_true.mp List.all_takeWhile u inside
      obtain ⟨first, second, whole, some, textuals, same, cut'⟩ := cut_textual (split ▸ cut) all
      obtain ⟨mid', said', later'⟩ :=
        say_of_runs (some (List.cons_ne_nil _ _)) textuals (whole ▸ runs)
      have template : Item.template (t :: more.takeWhile Token.isText) =
          .ofAtoms (first.flatMap Piece.atoms) := by
        apply Template.eq_of_atoms
        rw [Item.atoms_template, Template.atoms_ofAtoms, same]
      have shorter : (more.dropWhile Token.isText).length < (t :: more).length :=
        Nat.lt_succ_of_le (List.dropWhile_suffix _).length_le
      rw [Item.ofTokens_text text, foldlM_cons_eq_ok_iff]
      exact ⟨mid', r.step_text _ _ _ (by rw [template]; exact said'), ih _ shorter later' cut' rfl⟩

end Reader
end Parley
