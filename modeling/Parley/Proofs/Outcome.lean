import Parley.Expr.Eval

/-!
What a computation that may fail comes to when it is made of parts: first without a state, then with
the state that a run goes on with.
-/
namespace Parley

theorem bind_eq_ok_iff {ε α β : Type} {x : Except ε α} {f : α → Except ε β} {b : β} :
    x >>= f = .ok b ↔ ∃ a, x = .ok a ∧ f a = .ok b := by
  cases x with
  | error e => simp [bind, Except.bind]
  | ok a => simp [bind, Except.bind]

@[simp] theorem ok_bind {ε α β : Type} (a : α) (f : α → Except ε β) :
    (Except.ok a : Except ε α) >>= f = f a := rfl

@[simp] theorem error_bind {ε α β : Type} (e : ε) (f : α → Except ε β) :
    (Except.error e : Except ε α) >>= f = .error e := rfl

theorem bind_eq_error_iff {ε α β : Type} {x : Except ε α} {f : α → Except ε β} {e : ε} :
    x >>= f = .error e ↔ x = .error e ∨ ∃ a, x = .ok a ∧ f a = .error e := by
  cases x with
  | error e' => simp
  | ok a => simp

@[simp] theorem pure_eq_ok {ε α : Type} (a : α) : (pure a : Except ε α) = .ok a := rfl

theorem toOption_eq_some_iff {ε α : Type} {x : Except ε α} {a : α} :
    x.toOption = some a ↔ x = .ok a := by
  cases x <;> simp [Except.toOption]

/-- The error in an outcome. -/
def errorIn {ε α : Type} : Except ε α → Option ε
  | .error e => some e
  | .ok _ => none

theorem errorIn_eq_some_iff {ε α : Type} {x : Except ε α} {e : ε} :
    errorIn x = some e ↔ x = .error e := by
  cases x <;> simp [errorIn]

theorem map_eq_ok_iff {ε α β : Type} {x : Except ε α} {f : α → β} {b : β} :
    x.map f = .ok b ↔ ∃ a, x = .ok a ∧ f a = b := by
  cases x with
  | error e => simp [Except.map]
  | ok a => simp [Except.map]

theorem map_eq_error_iff {ε α β : Type} {x : Except ε α} {f : α → β} {e : ε} :
    x.map f = .error e ↔ x = .error e := by
  cases x <;> simp [Except.map]

theorem mapError_eq_ok_iff {ε ε' α : Type} {x : Except ε α} {f : ε → ε'} {a : α} :
    x.mapError f = .ok a ↔ x = .ok a := by
  constructor
  · intro mapped
    cases x <;> cases mapped
    rfl
  · rintro rfl
    rfl

/-- A fold that succeeds takes its first step and goes on from there. -/
theorem foldlM_cons_eq_ok_iff {ε α β : Type} {f : β → α → Except ε β} {s r : β} {x : α}
    {xs : List α} :
    (x :: xs).foldlM f s = .ok r ↔ ∃ m, f s x = .ok m ∧ xs.foldlM f m = .ok r := by
  rw [List.foldlM_cons, bind_eq_ok_iff]

theorem mapM_congr {ε α β : Type} {f g : α → Except ε β} {xs : List α}
    (same : ∀ x ∈ xs, f x = g x) : xs.mapM f = xs.mapM g := by
  induction xs with
  | nil => rfl
  | cons x rest ih =>
    rw [List.mapM_cons, List.mapM_cons, same x (by simp),
      ih fun y member => same y (by simp [member])]

theorem mapM_id_eq_ok_iff {ε α : Type} {xs : List (Except ε α)} {ys : List α} :
    xs.mapM id = .ok ys ↔ xs = ys.map .ok := by
  induction xs generalizing ys with
  | nil => cases ys <;> simp
  | cons x rest ih =>
    rw [List.mapM_cons, bind_eq_ok_iff]
    constructor
    · rintro ⟨a, here, later⟩
      obtain ⟨others, found, same⟩ := bind_eq_ok_iff.mp later
      cases same
      rw [List.map_cons, ← ih.mp found]
      exact congrArg (· :: rest) here
    · intro same
      obtain ⟨a, others, rfl, here, later⟩ := List.map_eq_cons_iff.mp same.symm
      exact ⟨a, here.symm, by rw [ih.mpr later.symm]; rfl⟩

namespace Run

variable {ε σ α β : Type}

/-- What a computation does next with the outcome of its first part. -/
def andThen (f : α → ExceptT ε (StateM σ) β) : Except ε α × σ → Except ε β × σ
  | (.ok a, s) => f a s
  | (.error e, s) => (.error e, s)

theorem bind_apply (x : ExceptT ε (StateM σ) α) (f : α → ExceptT ε (StateM σ) β) (s : σ) :
    (x >>= f) s = andThen f (x s) := by
  simp only [bind, ExceptT.bind, ExceptT.mk, StateT.bind]
  cases x s with
  | mk result after => cases result <;> rfl

@[simp] theorem andThen_ok (f : α → ExceptT ε (StateM σ) β) (a : α) (s : σ) :
    andThen f (.ok a, s) = f a s := rfl

@[simp] theorem andThen_error (f : α → ExceptT ε (StateM σ) β) (e : ε) (s : σ) :
    andThen f (.error e, s) = (.error e, s) := rfl

@[simp] theorem pure_apply (a : α) (s : σ) :
    (pure a : ExceptT ε (StateM σ) α) s = (.ok a, s) := rfl

@[simp] theorem throw_apply (e : ε) (s : σ) :
    (throw e : ExceptT ε (StateM σ) α) s = (.error e, s) := rfl

@[simp] theorem get_apply (s : σ) : (get : ExceptT ε (StateM σ) σ) s = (.ok s, s) := rfl

@[simp] theorem set_apply (next s : σ) :
    (set next : ExceptT ε (StateM σ) PUnit) s = (.ok (), next) := rfl

@[simp] theorem modify_apply (f : σ → σ) (s : σ) :
    (modify f : ExceptT ε (StateM σ) PUnit) s = (.ok (), f s) := rfl

@[simp] theorem ofExcept_apply (x : Except Failure α) (s : σ) : ofExcept x s = (x, s) := by
  cases x <;> rfl

theorem bind_assoc {γ : Type} (x : Run σ α) (f : α → Run σ β) (g : β → Run σ γ) :
    x >>= f >>= g = x >>= fun a => f a >>= g := by
  funext s
  simp only [bind_apply]
  cases x s with
  | mk result after =>
    cases result with
    | error e => rfl
    | ok a => exact (bind_apply (f a) g after).symm

/-- Whether something that holds of a state holds of the state after a run, however it ends. -/
def Keeps (inv : σ → Prop) (m : ExceptT ε (StateM σ) α) : Prop := ∀ s, inv s → inv (m s).2

variable {inv : σ → Prop}

theorem keeps_pure (a : α) : Keeps inv (pure a : ExceptT ε (StateM σ) α) := fun _ h => h

theorem keeps_ofExcept (x : Except Failure α) : Keeps inv (ofExcept x : Run σ α) := by
  intro s h
  rwa [ofExcept_apply]

theorem keeps_bind {x : ExceptT ε (StateM σ) α} {f : α → ExceptT ε (StateM σ) β}
    (first : Keeps inv x)
    (later : ∀ a, Keeps inv (f a)) : Keeps inv (x >>= f) := by
  intro s h
  have after := first s h
  rw [bind_apply]
  cases outcome : x s with
  | mk result next =>
    rw [outcome] at after
    cases result with
    | error e => exact after
    | ok a => exact later a next after

end Run
end Parley
