import Parley.Expr.Basic
import Parley.Number.Arithmetic
import Parley.Value.Format
import Parley.Value.Order

/-!
Evaluation. An expression is evaluated over some state that holds variables; what it has assigned
before it fails stays assigned.
-/
namespace Parley

/-- Computations that read and write variables in a state and may fail in between. -/
abbrev Run (σ : Type) := ExceptT Failure (StateM σ)

/-- How the variables in a state are read and written. -/
structure Scope (σ : Type) where
  read : String → σ → Option Value
  write : String → Value → Run σ Unit

namespace Scope

/-- Variables that stand alone. -/
def plain : Scope Bindings where
  read name bindings := Assoc.get? name bindings
  write name value := modify (Assoc.insert name value)

/-- No variables: each reads as unset and none can be assigned to. -/
def none : Scope Unit where
  read _ _ := Option.none
  write name _ := throw (.evaluation (.noVariables name))

end Scope

def Run.fail {σ α : Type} (error : EvalError) : Run σ α := throw (.evaluation error)

def Run.ofExcept {σ α : Type} : Except Failure α → Run σ α
  | .ok a => pure a
  | .error e => throw e

/-- Whether some characters stand next to each other in a text. -/
def occursIn (part : List Char) : List Char → Bool
  | [] => part.isEmpty
  | text@(_ :: rest) => part.isPrefixOf text || occursIn part rest

namespace Value

/-- Whether a container holds an item: a list an equal one, a map one as a key, a text the text
of one. -/
def holds (container item : Value) : Except Failure Bool :=
  match container with
  | .list items => .ok (items.any (·.same item))
  | .map entries =>
      .ok (match item with
        | .text key => Assoc.contains key entries
        | _ => false)
  | .text s => return occursIn (← item.format).toList s.toList
  | other => .error (.evaluation (.noElements other.kind))

/-- The sum of numbers, the texts of two values if one of them is a text, or two lists joined. -/
def add (a b : Value) : Except Failure Value :=
  match a.asNumber?, b.asNumber? with
  | some x, some y => (x.add y).map Number.value
  | _, _ =>
    match a, b with
    | .text s, _ => return .text (s ++ (← b.format))
    | _, .text s => return .text ((← a.format) ++ s)
    | .list xs, .list ys => .ok (.list (xs ++ ys))
    | _, _ => .error (.evaluation (.notAddable a.kind b.kind))

/-- Any other arithmetic, which knows numbers only. -/
def arithmetic (op : BinaryOp) (a b : Value) : Except Failure Value :=
  match a.asNumber?, b.asNumber? with
  | some x, some y =>
      match op with
      | .sub => (x.sub y).map Number.value
      | .mul => (x.mul y).map Number.value
      | _ =>
        if y.isZero then .error (.evaluation .divisionByZero)
        else if op = .mod then (x.modulo y).map Number.value
        else (x.div y).map Number.value
  | _, _ => .error (.evaluation (.notNumbers op.symbol a.kind b.kind))

def compared (a b : Value) (p : Ordering → Bool) : Except Failure Value :=
  match a.order? b with
  | some o => .ok (.bool (p o))
  | none => .error (.evaluation (.notComparable a.kind b.kind))

/-- A binary operator on two values. The logical ones do not get here with both operands
evaluated; on values they would be as given. -/
def binary (op : BinaryOp) (a b : Value) : Except Failure Value :=
  match op with
  | .or => .ok (.bool (a.truthy || b.truthy))
  | .and => .ok (.bool (a.truthy && b.truthy))
  | .eq => .ok (.bool (a.same b))
  | .ne => .ok (.bool !(a.same b))
  | .lt => compared a b (· == .lt)
  | .le => compared a b (· != .gt)
  | .gt => compared a b (· == .gt)
  | .ge => compared a b (· != .lt)
  | .among => (holds b a).map .bool
  | .add => add a b
  | .sub | .mul | .div | .mod => arithmetic op a b

def unary (op : UnaryOp) (a : Value) : Except Failure Value :=
  match op with
  | .not => .ok (.bool !a.truthy)
  | .neg =>
      match a.asNumber? with
      | some x => .ok x.neg.value
      | none => do throw (.evaluation (.notNegatable a.kind (← a.format)))

/-- The position that a value is in a list or a text. -/
def position (index : Value) : Except Failure Int :=
  match index with
  | .int n => .ok n
  | .float .nan => .error .noPosition
  | .float (.infinite _) => .error .overflow
  | .float x =>
      match x.isWhole, x.truncate? with
      | true, some n => .ok n
      | _, _ => do throw (.evaluation (.indexNotWhole (← index.format)))
  | other => do throw (.evaluation (.indexNotWhole (← other.format)))

def within {α : Type} (items : List α) (position : Int) : Except Failure α :=
  match if position < 0 then none else items[position.toNat]? with
  | some item => .ok item
  | none =>
      if isWritableInt position then .error (.evaluation (.indexOutOfRange position))
      else .error .tooLong

def index (container index : Value) : Except Failure Value :=
  match container with
  | .map entries =>
      match index with
      | .text key => .ok ((Assoc.get? key entries).getD .null)
      | other => .error (.evaluation (.mapIndexNotString other.kind))
  | .list items => do
      let p ← position index
      within items p
  | .text s => do
      let p ← position index
      let c ← within s.toList p
      return .text (String.ofList [c])
  | other => .error (.evaluation (.notIndexable other.kind))

def member (container : Value) (name : String) : Except Failure Value :=
  match container with
  | .map entries => .ok ((Assoc.get? name entries).getD .null)
  | other => .error (.evaluation (.noMembers name other.kind))

end Value

def Literal.value : Literal → Value
  | .null => .null
  | .bool b => .bool b
  | .int n => .int n
  | .float x => .float x
  | .text s => .text s

namespace Expr

variable {σ : Type}

mutual

def eval (scope : Scope σ) : Expr → Run σ Value
  | literal l => pure l.value
  | var name => return ((scope.read name (← get)).getD .null)
  | list items => return .list (← evalItems scope items)
  | map entries => return .map (← evalEntries scope [] entries)
  | unary op operand => do
      let value ← eval scope operand
      Run.ofExcept (value.unary op)
  | binary .and left right => do
      let first ← eval scope left
      if first.truthy then
        let second ← eval scope right
        return .bool second.truthy
      else return .bool false
  | binary .or left right => do
      let first ← eval scope left
      if first.truthy then return .bool true
      else
        let second ← eval scope right
        return .bool second.truthy
  | binary op left right => do
      let first ← eval scope left
      let second ← eval scope right
      Run.ofExcept (Value.binary op first second)
  | index target position => do
      let container ← eval scope target
      let value ← eval scope position
      Run.ofExcept (container.index value)
  | member target name => do
      let container ← eval scope target
      Run.ofExcept (container.member name)
  | assign name value => do
      let result ← eval scope value
      scope.write name result
      return result

def evalItems (scope : Scope σ) : List Expr → Run σ (List Value)
  | [] => pure []
  | item :: rest => do
      let value ← eval scope item
      return value :: (← evalItems scope rest)

def evalEntries (scope : Scope σ) (done : List (String × Value)) :
    List (Expr × Expr) → Run σ (List (String × Value))
  | [] => pure done
  | (key, item) :: rest => do
      match ← eval scope key with
      | .text name =>
          let value ← eval scope item
          evalEntries scope (Assoc.insert name value done) rest
      | other => Run.fail (.keyNotString other.kind)

end

end Expr
end Parley
