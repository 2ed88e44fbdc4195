import Parley.Number.Binary64

/-!
Expressions. An assignment has the assigned value as its own.
-/
namespace Parley

inductive Literal where
  | null
  | bool (b : Bool)
  | int (n : Nat)
  | float (x : Binary64)
  | text (s : String)
  deriving DecidableEq

inductive UnaryOp where
  | not
  | neg
  deriving DecidableEq

inductive BinaryOp where
  | or
  | and
  | eq
  | ne
  | lt
  | le
  | gt
  | ge
  | among
  | add
  | sub
  | mul
  | div
  | mod
  deriving DecidableEq

def UnaryOp.symbol : UnaryOp → String
  | .not => "!"
  | .neg => "-"

def BinaryOp.symbol : BinaryOp → String
  | .or => "||"
  | .and => "&&"
  | .eq => "=="
  | .ne => "!="
  | .lt => "<"
  | .le => "<="
  | .gt => ">"
  | .ge => ">="
  | .among => "in"
  | .add => "+"
  | .sub => "-"
  | .mul => "*"
  | .div => "/"
  | .mod => "%"

/-- How strongly an operator binds. Assignment binds by `1`, unary operators by `7` and what needs
no operator by `8`. -/
def BinaryOp.level : BinaryOp → Nat
  | .or => 2
  | .and => 3
  | .eq | .ne | .lt | .le | .gt | .ge | .among => 4
  | .add | .sub => 5
  | .mul | .div | .mod => 6

inductive Expr where
  | literal (l : Literal)
  | var (name : String)
  | list (items : List Expr)
  | map (entries : List (Expr × Expr))
  | unary (op : UnaryOp) (operand : Expr)
  | binary (op : BinaryOp) (left right : Expr)
  | index (target position : Expr)
  | member (target : Expr) (name : String)
  | assign (name : String) (value : Expr)

instance : Inhabited Expr := ⟨.literal .null⟩

namespace Expr

def level : Expr → Nat
  | literal _ | var _ | list _ | map _ | index .. | member .. => 8
  | unary .. => 7
  | binary op _ _ => op.level
  | assign .. => 1

mutual

/-- An expression and all expressions in it, each in front of its parts. -/
def nodes : Expr → List Expr
  | e@(literal _) | e@(var _) => [e]
  | e@(list items) => e :: nodesOfItems items
  | e@(map entries) => e :: nodesOfEntries entries
  | e@(unary _ operand) => e :: nodes operand
  | e@(binary _ left right) => e :: (nodes left ++ nodes right)
  | e@(index target position) => e :: (nodes target ++ nodes position)
  | e@(member target _) => e :: nodes target
  | e@(assign _ value) => e :: nodes value

def nodesOfItems : List Expr → List Expr
  | [] => []
  | item :: rest => nodes item ++ nodesOfItems rest

def nodesOfEntries : List (Expr × Expr) → List Expr
  | [] => []
  | (key, item) :: rest => nodes key ++ nodes item ++ nodesOfEntries rest

end

def isAssign : Expr → Bool
  | assign .. => true
  | _ => false

/-- The variable that an expression names itself, not through its parts. -/
def ownName? : Expr → Option String
  | var name => some name
  | assign name _ => some name
  | _ => none

/-- The names of all variables that an expression reads or writes. -/
def names (e : Expr) : List String := e.nodes.filterMap ownName?

/-- The names that an expression assigns to. -/
def targets (e : Expr) : List String := (e.nodes.filter isAssign).filterMap ownName?

def assigns (e : Expr) : Bool := e.nodes.any isAssign

end Expr
end Parley
