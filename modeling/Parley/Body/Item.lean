import Parley.Body.Token

/-!
The items of a body: runs of text, commands and replies, each with the tokens that belong to it.
-/
namespace Parley

/-- Tokens behind an opening marker, and the place of the closing marker if there is one. -/
structure Enclosed where
  start : Position
  inner : List Token
  stop : Option Position

inductive Item where
  | text (tokens : List Token)
  | command (tokens : Enclosed)
  | reply (tokens : Enclosed)
  | stray (t : Token)

namespace Token

def isText (t : Token) : Bool := t.kind == .text || t.kind == .var

end Token

namespace Enclosed

/-- The tokens up to a marker, which may be missing. -/
def upTo (closing : TokenKind) (start : Position) (tokens : List Token) : Enclosed :=
  ⟨start, tokens.takeWhile (·.kind != closing),
    (tokens.dropWhile (·.kind != closing)).head?.map (·.position)⟩

end Enclosed

/-- The tokens behind the first marker of a kind. -/
def Token.behind (closing : TokenKind) (tokens : List Token) : List Token :=
  (tokens.dropWhile (·.kind != closing)).tail

namespace Item

theorem length_behind_le (closing : TokenKind) (tokens : List Token) :
    (Token.behind closing tokens).length ≤ tokens.length := by
  have := (List.dropWhile_suffix (l := tokens) (·.kind != closing)).length_le
  simp only [Token.behind, List.length_tail]
  omega

def ofTokens : List Token → List Item
  | [] => []
  | t :: rest =>
      match t.content with
      | .text _ | .var _ =>
          .text (t :: rest.takeWhile Token.isText) :: ofTokens (rest.dropWhile Token.isText)
      | .commandStart =>
          .command (.upTo .commandEnd t.position rest) :: ofTokens (Token.behind .commandEnd rest)
      | .replyStart =>
          .reply (.upTo .replyEnd t.position rest) :: ofTokens (Token.behind .replyEnd rest)
      | _ => .stray t :: ofTokens rest
  termination_by tokens => tokens.length
  decreasing_by
    all_goals simp only [List.length_cons]
    · exact Nat.lt_succ_of_le (List.dropWhile_suffix (l := rest) Token.isText).length_le
    · exact Nat.lt_succ_of_le (length_behind_le _ _)
    · exact Nat.lt_succ_of_le (length_behind_le _ _)
    · omega

/-- The template of a run of text. -/
def template (tokens : List Token) : Template :=
  .ofParts (tokens.filterMap fun t =>
    match t.content with
    | .text value => some (.literal value)
    | .var name => some (.var name)
    | _ => none)

end Item
end Parley
