import Mathlib

namespace Vx.Lib.Fallible

variable {ε α β : Type}

theorem bind_eq_ok {x : Except ε α} {f : α → Except ε β} {b : β} (h : (x >>= f) = .ok b) :
    ∃ a, x = .ok a ∧ f a = .ok b := by
  cases x with
  | error reason => cases h
  | ok a => exact ⟨a, rfl, h⟩

end Vx.Lib.Fallible
