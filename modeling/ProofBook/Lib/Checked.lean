import Mathlib

/-!
# Refusals

Handlers run in the exception monad: a requirement refuses with its own error,
and a bind stops at the first refusal. The lemmas invert a whole handler into
the conjunction of its requirements, both when it succeeds and when it refuses.
-/
namespace ProofBook.Checked

universe u v

variable {E : Type u} {A B : Type v}

def require (c : Prop) [Decidable c] (e : E) : Except E PUnit.{v + 1} :=
  if c then .ok .unit else .error e

/-- A missing value is an error. -/
def demand (x : Option A) (e : E) : Except E A :=
  match x with
  | some a => .ok a
  | none => .error e

@[simp] theorem require_eq_ok {c : Prop} [Decidable c] {e : E} {u : PUnit.{v + 1}} :
    require c e = .ok u ↔ c := by
  unfold require
  split <;> simp [*]

@[simp] theorem require_eq_error {c : Prop} [Decidable c] {e e' : E} :
    (require c e : Except E PUnit.{v + 1}) = .error e' ↔ ¬ c ∧ e = e' := by
  unfold require
  split <;> simp [*]

@[simp] theorem demand_eq_ok {x : Option A} {e : E} {a : A} :
    demand x e = .ok a ↔ x = some a := by
  cases x <;> simp [demand]

@[simp] theorem demand_eq_error {x : Option A} {e e' : E} :
    demand x e = .error e' ↔ x = none ∧ e = e' := by
  cases x <;> simp [demand]

theorem bind_eq_ok {x : Except E A} {f : A → Except E B} {b : B} :
    (x >>= f) = .ok b ↔ ∃ a, x = .ok a ∧ f a = .ok b := by
  cases x <;> simp [bind, Except.bind]

theorem bind_eq_error {x : Except E A} {f : A → Except E B} {e : E} :
    (x >>= f) = .error e ↔ x = .error e ∨ ∃ a, x = .ok a ∧ f a = .error e := by
  cases x <;> simp [bind, Except.bind]

theorem pure_eq_ok {a b : A} : (pure a : Except E A) = .ok b ↔ a = b := by
  simp [pure, Except.pure]

theorem pure_ne_error {a : A} {e : E} : (pure a : Except E A) ≠ .error e := by
  simp [pure, Except.pure]

/-- Errors of a callee are reported under the caller's own error type. -/
def mapError {E' : Type u} (f : E → E') (x : Except E A) : Except E' A :=
  match x with
  | .ok a => .ok a
  | .error e => .error (f e)

@[simp] theorem mapError_eq_ok {E' : Type u} {f : E → E'} {x : Except E A} {a : A} :
    mapError f x = .ok a ↔ x = .ok a := by
  cases x <;> simp [mapError]

@[simp] theorem mapError_eq_error {E' : Type u} {f : E → E'} {x : Except E A} {e' : E'} :
    mapError f x = .error e' ↔ ∃ e, x = .error e ∧ f e = e' := by
  cases x <;> simp [mapError]

end ProofBook.Checked
