import Mathlib.Logic.Basic

/-!
# Exceptions — computations that raise

How a sequence of two computations came to its result, and handlers that raise an exception of
their own instead of the ones they catch.
-/

namespace FluxFast.Theory

variable {ε α β : Type}

theorem except_bind_ok {x : Except ε α} {f : α → Except ε β} {b : β} :
    (x >>= f) = .ok b ↔ ∃ a, x = .ok a ∧ f a = .ok b := by
  cases x with
  | error e => simp [bind, Except.bind]
  | ok a => simp [bind, Except.bind]

theorem except_bind_error {x : Except ε α} {f : α → Except ε β} {e : ε} :
    (x >>= f) = .error e ↔ x = .error e ∨ ∃ a, x = .ok a ∧ f a = .error e := by
  cases x with
  | error e => simp [bind, Except.bind]
  | ok a => simp [bind, Except.bind]

theorem except_map_ok {x : Except ε α} {f : α → β} {b : β} :
    x.map f = .ok b ↔ ∃ a, x = .ok a ∧ f a = b := by
  cases x with
  | error e => simp [Except.map]
  | ok a => simp [Except.map]

/-- `try … except caught as error: raise instead from error`. -/
def catching (caught : ε → Bool) (instead : ε) (body : Except ε α) : Except ε α :=
  match body with
  | .ok a => .ok a
  | .error e => if caught e then .error instead else .error e

theorem catching_eq_ok {caught : ε → Bool} {instead : ε} {body : Except ε α} {a : α} :
    catching caught instead body = .ok a ↔ body = .ok a := by
  cases body with
  | ok b => exact Iff.rfl
  | error e =>
    rw [catching]
    split
    · exact iff_of_false nofun nofun
    · exact Iff.rfl

/-- Where all that can be raised is caught, only the new exception comes out. -/
theorem catching_eq_error {caught : ε → Bool} {instead e : ε} {body : Except ε α}
    (hbody : ∀ e, body = .error e → caught e = true) (h : catching caught instead body = .error e) :
    e = instead := by
  cases body with
  | ok b => cases h
  | error e' =>
    rw [catching, if_pos (hbody e' rfl)] at h
    cases h
    rfl

end FluxFast.Theory
