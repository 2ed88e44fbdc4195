import Parley.Proofs.Expr.Operations
import Parley.Expr.Parser

/-!
Which operations an evaluation performs, and that one of these is behind every failure that is no
evaluation error.
-/
namespace Parley

namespace Run

variable {σ α β : Type} {x : Run σ α} {f : α → Run σ β} {s s'' : σ}

theorem bind_eq_ok_iff {b : β} :
    (x >>= f) s = (.ok b, s'') ↔ ∃ a s', x s = (.ok a, s') ∧ f a s' = (.ok b, s'') := by
  rw [bind_apply]
  constructor
  · intro done
    cases first : x s with
    | mk result after =>
      rw [first] at done
      cases result with
      | error e => cases done
      | ok a => exact ⟨a, after, rfl, done⟩
  · rintro ⟨a, s', first, done⟩
    rw [first]
    exact done

theorem bind_eq_error_iff {e : Failure} :
    ((x >>= f) s).1 = .error e ↔
      (x s).1 = .error e ∨ ∃ a s', x s = (.ok a, s') ∧ (f a s').1 = .error e := by
  rw [bind_apply]
  constructor
  · intro failed
    cases first : x s with
    | mk result after =>
      rw [first] at failed
      cases result with
      | error e' => exact .inl (congrArg Except.error (Except.error.inj failed))
      | ok a => exact .inr ⟨a, after, rfl, failed⟩
  · rintro (failed | ⟨a, s', first, failed⟩)
    · cases first : x s with
      | mk result after =>
        rw [first] at failed
        cases failed
        rfl
    · rw [first]
      exact failed

end Run

/-- Whether an operator goes on to its right operand behind the value of its left one. -/
def BinaryOp.GoesOn (op : BinaryOp) (left : Value) : Prop :=
  (op = .and → left.truthy = true) ∧ (op = .or → left.truthy = false)

namespace Expr

variable {σ : Type}

/-- An expression evaluated in some state, and a part of it with the state in which that part is
evaluated. -/
inductive Calls (scope : Scope σ) : Expr → σ → Expr → σ → Prop
  | item {before after : List Expr} {item : Expr} {s s' : σ} {values : List Value}
      (done : evalItems scope before s = (.ok values, s')) :
      Calls scope (list (before ++ item :: after)) s item s'
  | key {before after : List (Expr × Expr)} {key item : Expr} {s s' : σ}
      {entries : List (String × Value)}
      (done : evalEntries scope [] before s = (.ok entries, s')) :
      Calls scope (map (before ++ (key, item) :: after)) s key s'
  | entry {before after : List (Expr × Expr)} {key item : Expr} {s s' s'' : σ}
      {entries : List (String × Value)} {name : String}
      (done : evalEntries scope [] before s = (.ok entries, s'))
      (named : eval scope key s' = (.ok (.text name), s'')) :
      Calls scope (map (before ++ (key, item) :: after)) s item s''
  | operand {op : UnaryOp} {operand : Expr} {s : σ} : Calls scope (unary op operand) s operand s
  | left {op : BinaryOp} {left right : Expr} {s : σ} : Calls scope (binary op left right) s left s
  | right {op : BinaryOp} {left right : Expr} {s s' : σ} {a : Value}
      (first : eval scope left s = (.ok a, s')) (further : op.GoesOn a) :
      Calls scope (binary op left right) s right s'
  | target {target position : Expr} {s : σ} : Calls scope (index target position) s target s
  | position {target position : Expr} {s s' : σ} {container : Value}
      (first : eval scope target s = (.ok container, s')) :
      Calls scope (index target position) s position s'
  | holder {target : Expr} {name : String} {s : σ} : Calls scope (member target name) s target s
  | assigned {name : String} {value : Expr} {s : σ} : Calls scope (assign name value) s value s

/-- What an expression does itself with the values of its parts. -/
inductive Applies (scope : Scope σ) : Expr → σ → Operation → Prop
  | unary {op : UnaryOp} {operand : Expr} {s s' : σ} {v : Value}
      (value : eval scope operand s = (.ok v, s')) :
      Applies scope (unary op operand) s (.unary op v)
  | binary {op : BinaryOp} {left right : Expr} {s s' s'' : σ} {a b : Value}
      (both : op ≠ .and ∧ op ≠ .or) (first : eval scope left s = (.ok a, s'))
      (second : eval scope right s' = (.ok b, s'')) :
      Applies scope (binary op left right) s (.binary op a b)
  | index {target position : Expr} {s s' s'' : σ} {container i : Value}
      (first : eval scope target s = (.ok container, s'))
      (second : eval scope position s' = (.ok i, s'')) :
      Applies scope (index target position) s (.index container i)
  | member {target : Expr} {name : String} {s s' : σ} {container : Value}
      (first : eval scope target s = (.ok container, s')) :
      Applies scope (member target name) s (.member container name)

/-- The operations performed when an expression is evaluated in a state: its own, and those of the
parts that are evaluated. -/
inductive Performs (scope : Scope σ) : Expr → σ → Operation → Prop
  | own {e : Expr} {s : σ} {o : Operation} (applies : Applies scope e s o) : Performs scope e s o
  | inside {e e' : Expr} {s s' : σ} {o : Operation} (calls : Calls scope e s e' s')
      (performs : Performs scope e' s' o) : Performs scope e s o

variable {scope : Scope σ} {s : σ} {f : Failure}

theorem evalItems_cons_eq_ok_iff {item : Expr} {rest : List Expr} {values : List Value} {t : σ} :
    evalItems scope (item :: rest) s = (.ok values, t) ↔
      ∃ v s' others, eval scope item s = (.ok v, s') ∧
        evalItems scope rest s' = (.ok others, t) ∧ values = v :: others := by
  rw [evalItems, Run.bind_eq_ok_iff]
  constructor
  · rintro ⟨v, s', first, done⟩
    obtain ⟨others, _, later, last⟩ := Run.bind_eq_ok_iff.mp done
    cases last
    exact ⟨v, s', others, first, later, rfl⟩
  · rintro ⟨v, s', others, first, later, rfl⟩
    exact ⟨v, s', first, Run.bind_eq_ok_iff.mpr ⟨others, t, later, rfl⟩⟩

theorem evalItems_cons_eq_error_iff {item : Expr} {rest : List Expr} :
    (evalItems scope (item :: rest) s).1 = .error f ↔ (eval scope item s).1 = .error f ∨
      ∃ v s', eval scope item s = (.ok v, s') ∧ (evalItems scope rest s').1 = .error f := by
  have passed_on (v : Value) (s' : σ) :
      ((do return v :: (← evalItems scope rest) : Run σ (List Value)) s').1 = .error f ↔
        (evalItems scope rest s').1 = .error f := by
    rw [Run.bind_eq_error_iff]
    simp
  rw [evalItems, Run.bind_eq_error_iff]
  simp only [passed_on]

/-- Items are evaluated one after the other up to the first that fails. -/
theorem evalItems_eq_error_iff {items : List Expr} :
    (evalItems scope items s).1 = .error f ↔ ∃ before item after values s',
      items = before ++ item :: after ∧ evalItems scope before s = (.ok values, s') ∧
        (eval scope item s').1 = .error f := by
  induction items generalizing s with
  | nil => simp [evalItems]
  | cons item rest ih =>
    simp only [evalItems_cons_eq_error_iff, ih]
    constructor
    · rintro (here | ⟨v, s', first, before, other, after, values, t, rfl, done, there⟩)
      · exact ⟨[], item, rest, [], s, rfl, rfl, here⟩
      · have passed := evalItems_cons_eq_ok_iff.mpr ⟨v, s', values, first, done, rfl⟩
        exact ⟨item :: before, other, after, v :: values, t, rfl, passed, there⟩
    · rintro ⟨before, other, after, values, t, cut, done, there⟩
      cases before with
      | nil =>
        cases cut
        cases done
        exact .inl there
      | cons first before =>
        cases cut
        obtain ⟨v, s', others, value, later, rfl⟩ := evalItems_cons_eq_ok_iff.mp done
        exact .inr ⟨v, s', value, before, other, after, others, t, rfl, later, there⟩

theorem evalEntries_cons_eq_ok_iff {key item : Expr} {rest : List (Expr × Expr)}
    {done made : List (String × Value)} {t : σ} :
    evalEntries scope done ((key, item) :: rest) s = (.ok made, t) ↔
      ∃ name s' v s'', eval scope key s = (.ok (.text name), s') ∧
        eval scope item s' = (.ok v, s'') ∧
          evalEntries scope (Assoc.insert name v done) rest s'' = (.ok made, t) := by
  rw [evalEntries, Run.bind_eq_ok_iff]
  constructor
  · rintro ⟨k, s', named, later⟩
    cases k with
    | text name =>
      obtain ⟨v, s'', value, rest_done⟩ := Run.bind_eq_ok_iff.mp later
      exact ⟨name, s', v, s'', named, value, rest_done⟩
    | _ => cases later
  · rintro ⟨name, s', v, s'', named, value, rest_done⟩
    exact ⟨.text name, s', named, Run.bind_eq_ok_iff.mpr ⟨v, s'', value, rest_done⟩⟩

theorem evalEntries_cons_eq_error_iff {key item : Expr} {rest : List (Expr × Expr)}
    {done : List (String × Value)} (foreign : f.IsForeign) :
    (evalEntries scope done ((key, item) :: rest) s).1 = .error f ↔
      (eval scope key s).1 = .error f ∨ ∃ name s', eval scope key s = (.ok (.text name), s') ∧
        ((eval scope item s').1 = .error f ∨ ∃ v s'', eval scope item s' = (.ok v, s'') ∧
          (evalEntries scope (Assoc.insert name v done) rest s'').1 = .error f) := by
  rw [evalEntries, Run.bind_eq_error_iff]
  refine or_congr_right ?_
  constructor
  · rintro ⟨k, s', named, failed⟩
    cases k with
    | text name => exact ⟨name, s', named, Run.bind_eq_error_iff.mp failed⟩
    | _ => exact (foreign _ (Except.error.inj failed).symm).elim
  · rintro ⟨name, s', named, failed⟩
    exact ⟨.text name, s', named, Run.bind_eq_error_iff.mpr failed⟩

/-- Entries are evaluated one after the other, each key in front of its value, up to the first that
fails; a key that is no text fails by itself. -/
theorem evalEntries_eq_error_iff {entries : List (Expr × Expr)} {done : List (String × Value)}
    (foreign : f.IsForeign) :
    (evalEntries scope done entries s).1 = .error f ↔ ∃ before key item after made s',
      entries = before ++ (key, item) :: after ∧
        evalEntries scope done before s = (.ok made, s') ∧
          ((eval scope key s').1 = .error f ∨ ∃ name s'',
            eval scope key s' = (.ok (.text name), s'') ∧ (eval scope item s'').1 = .error f) := by
  induction entries generalizing s done with
  | nil => simp [evalEntries]
  | cons entry rest ih =>
    obtain ⟨key, item⟩ := entry
    simp only [evalEntries_cons_eq_error_iff foreign, ih]
    constructor
    · rintro (at_key | ⟨name, s', named, at_item | ⟨v, s'', value, before, key', item', after, made,
        t, rfl, passed, there⟩⟩)
      · exact ⟨[], key, item, rest, done, s, rfl, rfl, .inl at_key⟩
      · exact ⟨[], key, item, rest, done, s, rfl, rfl, .inr ⟨name, s', named, at_item⟩⟩
      · have all := evalEntries_cons_eq_ok_iff.mpr ⟨name, s', v, s'', named, value, passed⟩
        exact ⟨(key, item) :: before, key', item', after, made, t, rfl, all, there⟩
    · rintro ⟨before, key', item', after, made, t, cut, passed, there⟩
      cases before with
      | nil =>
        cases cut
        cases passed
        rcases there with at_key | ⟨name, s', named, at_item⟩
        · exact .inl at_key
        · exact .inr ⟨name, s', named, .inl at_item⟩
      | cons first before =>
        cases cut
        obtain ⟨name, s', v, s'', named, value, later⟩ := evalEntries_cons_eq_ok_iff.mp passed
        exact .inr ⟨name, s', named, .inr ⟨v, s'', value, before, key', item', after, made, t, rfl,
          later, there⟩⟩

theorem eval_binary {op : BinaryOp} (both : op ≠ .and ∧ op ≠ .or) (left right : Expr) :
    eval scope (binary op left right) = eval scope left >>= fun a =>
      eval scope right >>= fun b => Run.ofExcept (Value.binary op a b) := by
  cases op with
  | and => exact (both.1 rfl).elim
  | or => exact (both.2 rfl).elim
  | _ => rw [eval] <;> simp

/-- A binary expression fails with its left part, with its right one where it goes on to it, or by
itself. -/
theorem eval_binary_eq_error_iff {op : BinaryOp} {left right : Expr} :
    (eval scope (binary op left right) s).1 = .error f ↔ (eval scope left s).1 = .error f ∨
      ∃ a s', eval scope left s = (.ok a, s') ∧
        ((op.GoesOn a ∧ (eval scope right s').1 = .error f) ∨
          (op ≠ .and ∧ op ≠ .or) ∧ ∃ b s'', eval scope right s' = (.ok b, s'') ∧
            Value.binary op a b = .error f) := by
  have by_second (s' : σ) : ((do
      let second ← eval scope right
      return .bool second.truthy : Run σ Value) s').1 = .error f ↔
        (eval scope right s').1 = .error f := by
    rw [Run.bind_eq_error_iff]
    simp
  by_cases both : op ≠ .and ∧ op ≠ .or
  · have goes_on (a : Value) : op.GoesOn a := ⟨fun h => (both.1 h).elim, fun h => (both.2 h).elim⟩
    have by_itself : (op ≠ .and ∧ op ≠ .or) = True := eq_true both
    rw [eval_binary both, Run.bind_eq_error_iff]
    simp only [Run.bind_eq_error_iff, Run.ofExcept_apply, goes_on, by_itself, true_and]
  · obtain rfl | rfl : op = .and ∨ op = .or := by
      rw [not_and_or, not_not, not_not] at both
      exact both
    · rw [eval, Run.bind_eq_error_iff]
      refine or_congr_right (exists_congr fun a => exists_congr fun s' => and_congr_right fun _ => ?_)
      cases truth : a.truthy with
      | true =>
        have further : BinaryOp.and.GoesOn a :=
          ⟨fun _ => truth, fun other => by cases other⟩
        simp only [↓reduceIte, by_second, further, true_and, ne_eq, not_true_eq_false, false_and,
          or_false]
      | false => simp [BinaryOp.GoesOn, truth]
    · rw [eval, Run.bind_eq_error_iff]
      refine or_congr_right (exists_congr fun a => exists_congr fun s' => and_congr_right fun _ => ?_)
      cases truth : a.truthy with
      | true => simp [BinaryOp.GoesOn, truth]
      | false =>
        have further : BinaryOp.or.GoesOn a :=
          ⟨fun other => (by cases other), fun _ => truth⟩
        simp only [Bool.false_eq_true, ↓reduceIte, by_second, further, true_and, ne_eq,
          not_true_eq_false, and_false, false_and, or_false]

/-- Whether a failure comes up in an expression: in what it does itself, or in the evaluation of a
part. -/
def Breaks (scope : Scope σ) (e : Expr) (s : σ) (f : Failure) : Prop :=
  (∃ o, Applies scope e s o ∧ o.result = .error f) ∨
    ∃ e' s', Calls scope e s e' s' ∧ (eval scope e' s').1 = .error f

theorem not_breaks_literal (l : Literal) : ¬Breaks scope (literal l) s f := by
  rintro (⟨_, applies, _⟩ | ⟨_, _, calls, _⟩)
  · cases applies
  · cases calls

theorem not_breaks_var (name : String) : ¬Breaks scope (var name) s f := by
  rintro (⟨_, applies, _⟩ | ⟨_, _, calls, _⟩)
  · cases applies
  · cases calls

theorem list_breaks_iff {items : List Expr} :
    (eval scope (list items) s).1 = .error f ↔ Breaks scope (list items) s f := by
  have passed_on : (eval scope (list items) s).1 = .error f ↔
      (evalItems scope items s).1 = .error f := by
    rw [eval, Run.bind_eq_error_iff]
    simp
  rw [passed_on, evalItems_eq_error_iff]
  constructor
  · rintro ⟨before, item, after, values, s', rfl, done, failed⟩
    exact .inr ⟨item, s', .item done, failed⟩
  · rintro (⟨_, applies, _⟩ | ⟨item, s', calls, failed⟩)
    · cases applies
    · cases calls with
      | item done => exact ⟨_, item, _, _, s', rfl, done, failed⟩

theorem map_breaks_iff (foreign : f.IsForeign) {entries : List (Expr × Expr)} :
    (eval scope (map entries) s).1 = .error f ↔ Breaks scope (map entries) s f := by
  have passed_on : (eval scope (map entries) s).1 = .error f ↔
      (evalEntries scope [] entries s).1 = .error f := by
    rw [eval, Run.bind_eq_error_iff]
    simp
  rw [passed_on, evalEntries_eq_error_iff foreign]
  constructor
  · rintro ⟨before, key, item, after, made, s', rfl, done, at_key | ⟨name, s'', named, at_item⟩⟩
    · exact .inr ⟨key, s', .key done, at_key⟩
    · exact .inr ⟨item, s'', .entry done named, at_item⟩
  · rintro (⟨_, applies, _⟩ | ⟨part, s', calls, failed⟩)
    · cases applies
    · cases calls with
      | key done => exact ⟨_, part, _, _, _, s', rfl, done, .inl failed⟩
      | entry done named => exact ⟨_, _, part, _, _, _, rfl, done, .inr ⟨_, s', named, failed⟩⟩

theorem unary_breaks_iff {op : UnaryOp} {operand : Expr} :
    (eval scope (unary op operand) s).1 = .error f ↔ Breaks scope (unary op operand) s f := by
  rw [eval, Run.bind_eq_error_iff]
  simp only [Run.ofExcept_apply]
  constructor
  · rintro (failed | ⟨v, s', value, failed⟩)
    · exact .inr ⟨operand, s, .operand, failed⟩
    · exact .inl ⟨_, .unary value, failed⟩
  · rintro (⟨_, applies, failed⟩ | ⟨part, s', calls, failed⟩)
    · cases applies with
      | unary value => exact .inr ⟨_, _, value, failed⟩
    · cases calls
      exact .inl failed

theorem binary_breaks_iff {op : BinaryOp} {left right : Expr} :
    (eval scope (binary op left right) s).1 = .error f ↔
      Breaks scope (binary op left right) s f := by
  rw [eval_binary_eq_error_iff]
  constructor
  · rintro (failed | ⟨a, s', first, ⟨further, failed⟩ | ⟨both, b, s'', second, failed⟩⟩)
    · exact .inr ⟨left, s, .left, failed⟩
    · exact .inr ⟨right, s', .right first further, failed⟩
    · exact .inl ⟨_, .binary both first second, failed⟩
  · rintro (⟨_, applies, failed⟩ | ⟨part, s', calls, failed⟩)
    · cases applies with
      | binary both first second => exact .inr ⟨_, _, first, .inr ⟨both, _, _, second, failed⟩⟩
    · cases calls with
      | left => exact .inl failed
      | right first further => exact .inr ⟨_, s', first, .inl ⟨further, failed⟩⟩

theorem index_breaks_iff {target position : Expr} :
    (eval scope (index target position) s).1 = .error f ↔
      Breaks scope (index target position) s f := by
  rw [eval, Run.bind_eq_error_iff]
  simp only [Run.bind_eq_error_iff, Run.ofExcept_apply]
  constructor
  · rintro (failed | ⟨container, s', first, failed | ⟨i, s'', second, failed⟩⟩)
    · exact .inr ⟨target, s, .target, failed⟩
    · exact .inr ⟨position, s', .position first, failed⟩
    · exact .inl ⟨_, .index first second, failed⟩
  · rintro (⟨_, applies, failed⟩ | ⟨part, s', calls, failed⟩)
    · cases applies with
      | index first second => exact .inr ⟨_, _, first, .inr ⟨_, _, second, failed⟩⟩
    · cases calls with
      | target => exact .inl failed
      | position first => exact .inr ⟨_, s', first, .inl failed⟩

theorem member_breaks_iff {target : Expr} {name : String} :
    (eval scope (member target name) s).1 = .error f ↔ Breaks scope (member target name) s f := by
  rw [eval, Run.bind_eq_error_iff]
  simp only [Run.ofExcept_apply]
  constructor
  · rintro (failed | ⟨container, s', first, failed⟩)
    · exact .inr ⟨target, s, .holder, failed⟩
    · exact .inl ⟨_, .member first, failed⟩
  · rintro (⟨_, applies, failed⟩ | ⟨part, s', calls, failed⟩)
    · cases applies with
      | member first => exact .inr ⟨_, _, first, failed⟩
    · cases calls
      exact .inl failed

theorem assign_breaks_iff (writes : ∀ name value s, (scope.write name value s).1 ≠ .error f)
    {name : String} {value : Expr} :
    (eval scope (assign name value) s).1 = .error f ↔ Breaks scope (assign name value) s f := by
  rw [eval, Run.bind_eq_error_iff]
  have written (result : Value) (s' : σ) : ((do
      scope.write name result
      return result : Run σ Value) s').1 ≠ .error f := by
    rw [Ne, Run.bind_eq_error_iff]
    simp [writes]
  simp only [written, and_false, exists_false, or_false]
  constructor
  · intro failed
    exact .inr ⟨value, s, .assigned, failed⟩
  · rintro (⟨_, applies, _⟩ | ⟨part, s', calls, failed⟩)
    · cases applies
    · cases calls
      exact failed

/-- An evaluation ends in a foreign failure if that of a part does, or what is done with the parts
does. -/
theorem breaks_iff (foreign : f.IsForeign)
    (writes : ∀ name value s, (scope.write name value s).1 ≠ .error f) {e : Expr} :
    (eval scope e s).1 = .error f ↔ Breaks scope e s f := by
  cases e with
  | literal l => exact iff_of_false (by simp [eval]) (not_breaks_literal l)
  | var name => exact iff_of_false (by simp [eval, Run.bind_apply]) (not_breaks_var name)
  | list items => exact list_breaks_iff
  | map entries => exact map_breaks_iff foreign
  | unary op operand => exact unary_breaks_iff
  | binary op left right => exact binary_breaks_iff
  | index target position => exact index_breaks_iff
  | member target name => exact member_breaks_iff
  | assign name value => exact assign_breaks_iff writes

theorem Calls.sizeOf_lt {e e' : Expr} {s' : σ} (calls : Calls scope e s e' s') :
    sizeOf e' < sizeOf e := by
  cases calls with
  | @item before after item =>
    have part := List.sizeOf_lt_of_mem (show e' ∈ before ++ e' :: after by simp)
    simp only [list.sizeOf_spec]
    omega
  | @key before after key item =>
    have part := List.sizeOf_lt_of_mem (show (e', item) ∈ before ++ (e', item) :: after by simp)
    simp only [map.sizeOf_spec, Prod.mk.sizeOf_spec] at part ⊢
    omega
  | @entry before after key item =>
    have part := List.sizeOf_lt_of_mem (show (key, e') ∈ before ++ (key, e') :: after by simp)
    simp only [map.sizeOf_spec, Prod.mk.sizeOf_spec] at part ⊢
    omega
  | _ => simp +arith

/-- Where writing does not fail, a foreign failure of an evaluation is that of an operation
performed in it. -/
theorem eval_eq_error_iff (foreign : f.IsForeign)
    (writes : ∀ name value s, (scope.write name value s).1 ≠ .error f) {e : Expr} :
    (eval scope e s).1 = .error f ↔ ∃ o, Performs scope e s o ∧ o.result = .error f := by
  constructor
  · intro failed
    induction size : sizeOf e using Nat.strongRecOn generalizing e s with
    | ind n ih =>
      rcases (breaks_iff foreign writes).mp failed with
        ⟨o, applies, failed⟩ | ⟨e', s', calls, failed⟩
      · exact ⟨o, .own applies, failed⟩
      · obtain ⟨o, performs, failed⟩ := ih (sizeOf e') (size ▸ calls.sizeOf_lt) failed rfl
        exact ⟨o, .inside calls performs, failed⟩
  · rintro ⟨o, performs, failed⟩
    induction performs with
    | own applies => exact (breaks_iff foreign writes).mpr (.inl ⟨_, applies, failed⟩)
    | inside calls _ ih =>
      exact (breaks_iff foreign writes).mpr (.inr ⟨_, _, calls, ih failed⟩)

/-- On variables that stand alone an evaluation comes to a value or to an evaluation error, unless
an operation performed in it stumbles; and then it fails as that operation does. -/
theorem eval_escapes_iff (e : Expr) (bindings : Bindings) (f : Failure) :
    ((eval Scope.plain e bindings).1 = .error f ∧ f.IsForeign) ↔
      ∃ o, Performs Scope.plain e bindings o ∧ o.Stumbles f := by
  have writes (name : String) (value : Value) (s : Bindings) :
      (Scope.plain.write name value s).1 ≠ .error f := nofun
  constructor
  · rintro ⟨failed, foreign⟩
    obtain ⟨o, performs, failed⟩ := (eval_eq_error_iff foreign writes).mp failed
    exact ⟨o, performs, Operation.stumbles_iff.mpr ⟨failed, foreign⟩⟩
  · rintro ⟨o, performs, stumbles⟩
    obtain ⟨failed, foreign⟩ := Operation.stumbles_iff.mp stumbles
    exact ⟨(eval_eq_error_iff foreign writes).mpr ⟨o, performs, failed⟩, foreign⟩

theorem infinite_index_escapes : ∃ e, parse "[1][1e999]" = .ok e ∧
    (eval Scope.plain e []).1 = .error .overflow := by
  have computed : (parse "[1][1e999]").toOption.map
      (fun e => errorIn (eval Scope.plain e []).1) = some (some .overflow) := by decide +kernel
  obtain ⟨e, read, failed⟩ := Option.map_eq_some_iff.mp computed
  exact ⟨e, toOption_eq_some_iff.mp read, errorIn_eq_some_iff.mp failed⟩

end Expr
end Parley
