import Mathlib.Init

/-!
# Computations that may fail

When a bind of `Except` succeeds, both of its parts have.
-/

namespace RustSak

namespace Library

namespace Attempt

universe u

variable {ε ε' : Type*} {α β : Type u}

theorem bind_eq_ok {x : Except ε α} {f : α → Except ε β} {b : β} :
    x >>= f = .ok b ↔ ∃ a, x = .ok a ∧ f a = .ok b := by
  cases x with
  | error e => exact ⟨nofun, fun ⟨_, h, _⟩ => by cases h⟩
  | ok a => exact ⟨fun h => ⟨a, rfl, h⟩, fun ⟨_, h, hf⟩ => by cases h; exact hf⟩

theorem mapError_eq_ok {x : Except ε α} {f : ε → ε'} {a : α} :
    x.mapError f = .ok a ↔ x = .ok a := by
  cases x with
  | error e => exact ⟨nofun, nofun⟩
  | ok a' =>
      change Except.ok a' = .ok a ↔ Except.ok a' = .ok a
      rw [Except.ok.injEq, Except.ok.injEq]

theorem exists_of_toOption_any {x : Except ε α} {p : α → Bool}
    (h : x.toOption.any p = true) : ∃ a, x = .ok a ∧ p a = true := by
  cases x with
  | error e => cases h
  | ok a => exact ⟨a, rfl, h⟩

end Attempt

end Library

end RustSak
