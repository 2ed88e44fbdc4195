import Parley.Assoc
import Parley.Value.Basic

/-!
JSON documents. Their texts may hold halves of surrogate pairs, which escapes can write and which are
no characters; apart from that, documents are values.
-/
namespace Parley

/-- A character, or half of a surrogate pair that stands without the other half. -/
inductive Rune where
  | char (c : Char)
  | half (n : Fin 2048)
  deriving DecidableEq

namespace Rune

def code : Rune → Nat
  | char c => c.toNat
  | half n => 0xd800 + n.val

/-- The rune of a code point. -/
def ofCode (code : Nat) : Rune :=
  if h : 0xd800 ≤ code ∧ code < 0xe000 then half ⟨code - 0xd800, by omega⟩ else char (Char.ofNat code)

/-- A half alone is shown as the replacement character. -/
def shown : Rune → Char
  | char c => c
  | half _ => '\ufffd'

end Rune

/-- A document. No key stands twice in a map. -/
inductive Json where
  | null
  | bool (b : Bool)
  | int (n : Int)
  | float (x : Binary64)
  | text (s : List Rune)
  | list (items : List Json)
  | map (entries : List (List Rune × Json))

namespace Json

instance : Inhabited Json := ⟨.null⟩

def runes (s : String) : List Rune := s.toList.map .char

def shownText (s : List Rune) : String := String.ofList (s.map Rune.shown)

mutual

def ofValue : Value → Json
  | .null => .null
  | .bool b => .bool b
  | .int n => .int n
  | .float x => .float x
  | .text s => .text (runes s)
  | .list items => .list (ofItems items)
  | .map entries => .map (ofEntries entries)

def ofItems : List Value → List Json
  | [] => []
  | item :: rest => ofValue item :: ofItems rest

def ofEntries : List (String × Value) → List (List Rune × Json)
  | [] => []
  | (key, item) :: rest => (runes key, ofValue item) :: ofEntries rest

end

mutual

def toValue : Json → Value
  | null => .null
  | bool b => .bool b
  | int n => .int n
  | float x => .float x
  | text s => .text (shownText s)
  | list items => .list (toItems items)
  | map entries => .map (Assoc.ofList (toEntries entries))

def toItems : List Json → List Value
  | [] => []
  | item :: rest => toValue item :: toItems rest

/-- Two keys may look the same when they are shown. -/
def toEntries : List (List Rune × Json) → List (String × Value)
  | [] => []
  | (key, item) :: rest => (shownText key, toValue item) :: toEntries rest

end

end Json
end Parley
