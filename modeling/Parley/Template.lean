import Parley.Text.Blank
import Parley.Value.Format

/-!
Templates: text in which variables stand. Literal text is never empty and two literals never stand
side by side, so a template has one form only.
-/
namespace Parley

inductive Part where
  | literal (text : String)
  | var (name : String)
  deriving DecidableEq

namespace Part

def isLiteral : Part → Bool
  | literal _ => true
  | var _ => false

def Normal : List Part → Prop
  | [] => True
  | var _ :: rest => Normal rest
  | literal text :: rest => text ≠ "" ∧ (∀ part ∈ rest.head?, part.isLiteral = false) ∧ Normal rest

/-- Joins literals that stand side by side and leaves out empty ones. -/
def normalize : List Part → List Part
  | [] => []
  | var name :: rest => var name :: normalize rest
  | literal text :: rest =>
      if text = "" then normalize rest
      else match normalize rest with
        | literal more :: others => literal (text ++ more) :: others
        | others => literal text :: others

theorem normal_normalize (parts : List Part) : Normal (normalize parts) := by
  fun_induction normalize parts with
  | case1 => trivial
  | case2 name rest ih => exact ih
  | case3 rest ih => exact ih
  | case4 text rest h more others eq ih =>
    rw [eq] at ih
    exact ⟨by simp [h], ih.2⟩
  | case5 text rest h no ih =>
    refine ⟨h, fun part mem => ?_, ih⟩
    generalize normalize rest = others at no mem
    cases others with
    | nil => simp at mem
    | cons first more =>
      obtain rfl : first = part := by simpa using mem
      cases first with
      | literal t => exact (no t more rfl).elim
      | var name => rfl

/-- The source of a part as it is shown to a reader. -/
def shown : Part → String
  | literal text => text
  | var name => "$" ++ name

end Part

structure Template where
  parts : List Part
  normal : Part.Normal parts

/-- Where a template is written: as the text of a body or between quotes. -/
inductive Quotation where
  | body
  | quoted
  deriving DecidableEq

def Quotation.escapes : Quotation → Char → Bool
  | .body, c =>
      c == '\\' || c == '$' || c == '<' || c == '>' || c == '[' || c == ']' || c == '|'
  | .quoted, c => c == '\\' || c == '$' || c == '"'

/-- A text with a backslash before each character that would not stand for itself. In a body this
holds also of the second of two slashes, which would start a comment. -/
def escapeChars (quotation : Quotation) (afterSlash : Bool) : List Char → List Char
  | [] => []
  | c :: rest =>
      let following := escapeChars quotation (c == '/') rest
      if quotation.escapes c || (quotation == .body && afterSlash && c == '/') then
        '\\' :: c :: following
      else c :: following

def escapeText (quotation : Quotation) (text : String) : String :=
  String.ofList (escapeChars quotation false text.toList)

namespace Template

instance : DecidableEq Template := fun a b =>
  if h : a.parts = b.parts then .isTrue (by cases a; cases b; cases h; rfl)
  else .isFalse (fun e => h (e ▸ rfl))

def ofParts (parts : List Part) : Template := ⟨Part.normalize parts, Part.normal_normalize parts⟩

def empty : Template := ⟨[], trivial⟩

instance : Inhabited Template := ⟨empty⟩

def ofText (text : String) : Template := ofParts [.literal text]

def append (t u : Template) : Template := ofParts (t.parts ++ u.parts)

instance : Append Template := ⟨append⟩

def isEmpty (t : Template) : Bool := t.parts.isEmpty

/-- The names of the variables in a template. -/
def reads (t : Template) : List String :=
  t.parts.filterMap fun
    | .var name => some name
    | .literal _ => none

def isPlain (t : Template) : Bool := t.parts.all Part.isLiteral

/-- Whether there is nothing but blank text. -/
def isBlank (t : Template) : Bool :=
  t.parts.all fun
    | .literal text => isBlankText text
    | .var _ => false

/-- The variable that a template consists of. -/
def singleVar? (t : Template) : Option String :=
  match t.parts with
  | [.var name] => some name
  | _ => none

def partText (lookup : String → Option Value) : Part → Except Failure String
  | .literal text => .ok text
  | .var name => ((lookup name).getD .null).format

/-- The text that a template comes to when each variable has the text of its value, and an unset
one that of null. -/
def evaluate (t : Template) (lookup : String → Option Value) : Except Failure String :=
  (t.parts.mapM (partText lookup)).map String.join

/-- The template of the text that it comes to. -/
def resolve (t : Template) (lookup : String → Option Value) : Except Failure Template :=
  (t.evaluate lookup).map ofText

/-- The text where no variable has a value. -/
def plainText (t : Template) : String :=
  String.join (t.parts.map fun
    | .literal text => text
    | .var _ => "null")

def trimStartParts : List Part → List Part
  | .literal text :: rest =>
      let trimmed := stripStart text
      if trimmed = "" then trimStartParts rest else .literal trimmed :: rest
  | parts => parts

/-- The same as `trimStartParts`, on parts in reverse order. -/
def trimEndReversed : List Part → List Part
  | .literal text :: rest =>
      let trimmed := stripEnd text
      if trimmed = "" then trimEndReversed rest else .literal trimmed :: rest
  | parts => parts

def trimStart (t : Template) : Template := ofParts (trimStartParts t.parts)

def trimEnd (t : Template) : Template := ofParts (trimEndReversed t.parts.reverse).reverse

def trim (t : Template) : Template := t.trimStart.trimEnd

def partScript (quotation : Quotation) : Part → String
  | .literal text => escapeText quotation text
  | .var name => "$" ++ name

/-- The source of a template. -/
def toScript (t : Template) (quotation : Quotation) : String :=
  String.join (t.parts.map (partScript quotation))

/-- The parts as they are shown to a reader. -/
def shown (t : Template) : String := String.join (t.parts.map Part.shown)

end Template
end Parley
