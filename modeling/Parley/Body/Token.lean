import Parley.Body.Error
import Parley.Template

/-!
The tokens of a body.
-/
namespace Parley

/-- What a token stands for; a text has its escapes already applied. -/
inductive Content where
  | text (value : String)
  | var (name : String)
  | commandStart
  | commandEnd
  | quoted (value : Template)
  | replyStart
  | replyEnd
  | separator
  deriving DecidableEq

def Content.kind : Content → TokenKind
  | text _ => .text
  | var _ => .var
  | commandStart => .commandStart
  | commandEnd => .commandEnd
  | quoted _ => .quoted
  | replyStart => .replyStart
  | replyEnd => .replyEnd
  | separator => .separator

/-- A token with its source as it is written in the script. -/
structure Token where
  content : Content
  source : String
  position : Position
  deriving DecidableEq

namespace Token

def kind (t : Token) : TokenKind := t.content.kind

/-- Whether a token is blank text. -/
def isBlank (t : Token) : Bool :=
  match t.content with
  | .text value => isBlankText value
  | _ => false

def mapText (f : String → String) (t : Token) : Token :=
  match t.content with
  | .text value => { t with content := .text (f value) }
  | _ => t

/-- The tokens without the blank text they start with. -/
def skipBlank (tokens : List Token) : List Token := tokens.dropWhile isBlank

def mapFirst (f : Token → Token) : List Token → List Token
  | [] => []
  | t :: rest => f t :: rest

/-- The tokens without blanks at both ends. -/
def trim (tokens : List Token) : List Token :=
  let inner := ((skipBlank tokens).reverse.dropWhile isBlank).reverse
  let started := mapFirst (mapText stripStart) inner
  (mapFirst (mapText stripEnd) started.reverse).reverse

end Token
end Parley
