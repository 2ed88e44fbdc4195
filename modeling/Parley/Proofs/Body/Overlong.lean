import Parley.Proofs.Body.Elsewhere
import Parley.Proofs.Body.Embedded

/-!
Numbers with more digits than are read. A command with such a number is refused for it, wherever it
stands.
-/
namespace Parley

open Numeral Tokenizer

variable {digits : List Char}

/-- A condition that is a number. -/
def numberCondition (digits : List Char) : List Char :=
  '<' :: '<' :: ("if".toList ++ ' ' :: digits ++ ['>', '>'])

/-- A line of a body with an empty block on such a condition. -/
def numberLine (digits : List Char) : List Char := numberCondition digits ++ "<<endif>>".toList

/-- A condition that is a number with too many digits is refused. -/
theorem exists_longCommand (plain : ∀ c ∈ digits, isPlainDigit c)
    (long : maxDigits < digits.length) :
    ∃ inner, IsCommand "if" (String.ofList (numberCondition digits)) (fun e => ∃ place,
      e.condition "if" = .error ((Cause.invalidExpression .longNumber).placedAt place)) inner := by
  have named : isName "if".toList := by decide
  have filled : (' ' :: digits).all isBlank = false := by
    rw [List.all_cons, Expr.not_blank_of_digits plain (by rintro rfl; cases long), Bool.and_false]
  obtain ⟨position, refused⟩ := Expr.parseChars_of_long plain long
  refine exists_typedCommand named (renders_digits (fun c member => .inl (plain c member)) _)
    (String.toList_ofList ..) fun {ps tokens start stop} source cut => ?_
  obtain ⟨place, given⟩ := @Enclosed.nameAndExpr_of_refused _ _ _ start stop named _
    isNameChar_of_head source cut filled _ refused
  exact ⟨place, by rw [Enclosed.condition, Enclosed.expr, given]; rfl⟩

/-- A condition that is refused has its body refused, if the body starts with it. -/
theorem Body.Reading.step_of_refused {dialogue : String} {e : Enclosed} {t : Token}
    {defect : ScriptError} (named : e.named = .ok ("if", t, e))
    (refused : e.condition "if" = .error defect) :
    step dialogue standardCommands (.start 1) (.command e) = .error defect := by
  have allowed : permit standardCommands "if" t = .ok () := rfl
  have given : (start 1).command "if" e = .error defect := by
    rw [command, refused]
    rfl
  rw [step, named, ok_bind]
  exact (congrArg (· >>= fun _ => (start 1).command "if" e) allowed).trans given

/-- The body of a line with such a number is refused for it. -/
theorem Body.ofLines_of_long (plain : ∀ c ∈ digits, isPlainDigit c)
    (long : maxDigits < digits.length) (dialogue : String) (n : Nat) :
    ∃ place, ofLines dialogue n [numberLine digits] =
      .error ((Cause.invalidExpression .longNumber).placedAt place) := by
  obtain ⟨inner, isIf⟩ := exists_longCommand plain long
  obtain ⟨last, isEnd⟩ := exists_word "endif" (by decide)
  let ps := enclose inner ++ (enclose last ++ [lineFeed])
  have writes : Writes false (numberLine digits ++ ['\n']) ps := by
    have whole : Writes false _ ps := isIf.writes (isEnd.writes (writes_lineFeed writes_nil))
    rwa [String.toList_ofList, ← List.append_assoc] at whole
  have flat : [ps].flatten = ps := List.flatten_singleton
  obtain ⟨tokens, read, cut⟩ := @readEach_of_legible .initial .initial [ps]
    (List.isChain_singleton ps) (fun p member => (writes.sound p (flat ▸ member)).filled)
    (flat.symm ▸ writes.legible none (by simp [Clear])) n
  have found : (readLines .initial n ([numberLine digits].map (· ++ ['\n']))).1 =
      .ok tokens.flatten := by
    have source : [numberLine digits].map (· ++ ['\n']) = [ps].map sourceOf := by
      simp [writes.source]
    have all : (tokens.map (Except.ok : List Token → Except ScriptError _)).mapM id = .ok tokens :=
      mapM_id_eq_ok_iff.mpr rfl
    rw [source, readLines, read]
    dsimp only
    rw [all]
    rfl
  have whole : ps = .mark .commandStart ['<', '<'] ::
      (inner ++ .mark .commandEnd ['>', '>'] :: (enclose last ++ [lineFeed])) := by
    simp [ps, enclose]
  have other : TokenKind.commandEnd ≠ .text := by decide
  rw [flat, whole] at cut
  obtain ⟨start, inside, stop, behind, here, _, _, more, same, upTo, _⟩ :=
    Reader.enclosed_of_cut other
      (fun p member => (isIf.encloses.inside p member).inner _ (by decide) (by decide)) cut rfl
  obtain ⟨t, named⟩ := isIf.named inside start stop here
  obtain ⟨place, refused⟩ := isIf.read inside start stop here
  refine ⟨place, ?_⟩
  rw [ofLines, found, ok_bind, same, ofTokens, Item.ofTokens]
  dsimp only
  rw [upTo, List.foldlM_cons, Reading.step_of_refused named refused]
  rfl

end Parley
