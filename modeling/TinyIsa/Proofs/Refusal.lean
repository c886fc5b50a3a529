import Mathlib
import TinyIsa.Proofs.Except

/-!
# The error of a computation that is refused

A composite computation is refused with the first error of its parts.

* `refusal`: the error of a computation, if it has one.
* `refusal_bind`: one part after another.
* `refusal_mapM`: the parts of a list, the first one that is refused.
-/

namespace TinyIsa

variable {ε ε' α β : Type}

/-- The error of a computation that is refused. -/
def refusal : Except ε α → Option ε
  | .error e => some e
  | .ok _ => none

theorem refusal_eq_some {x : Except ε α} {e : ε} : refusal x = some e ↔ x = .error e := by
  cases x <;> simp [refusal]

theorem refusal_eq_none {x : Except ε α} : refusal x = none ↔ ∃ a, x = .ok a := by
  cases x <;> simp [refusal]

theorem refusal_mapError (x : Except ε α) (f : ε → ε') : refusal (x.mapError f) = (refusal x).map f := by
  cases x <;> rfl

/-- **One part after another**: the second one counts when the first one succeeds. -/
theorem refusal_bind {x : Except ε α} {f : α → Except ε β} {o : Option ε}
    (h : ∀ a, x = .ok a → refusal (f a) = o) : refusal (x >>= f) = (refusal x).or o := by
  cases x with
  | error e => rfl
  | ok a => exact h a rfl

/-- A result put together from that of a computation is refused with it. -/
theorem refusal_bind_pure (x : Except ε α) (f : α → β) : refusal (do return f (← x)) = refusal x := by
  cases x <;> rfl

/-- **The parts of a list** are refused with the first error among them. -/
theorem refusal_mapM (f : α → Except ε β) (l : List α) :
    refusal (l.mapM f) = l.findSome? fun a => refusal (f a) := by
  induction l with
  | nil => rfl
  | cons a l ih =>
    rw [List.mapM_cons, refusal_bind fun _ _ => (refusal_bind_pure _ _).trans ih]
    rw [List.findSome?_cons]
    cases refusal (f a) <;> rfl

end TinyIsa
