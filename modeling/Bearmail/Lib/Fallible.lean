import Mathlib.Init

/-!
# Computations that can fail

What the success of a computation in two parts says.
-/

namespace Fallible

variable {ε α β : Type} {x : Except ε α} {f : α → Except ε β} {b : β}

theorem bind_eq_ok : (x >>= f) = .ok b ↔ ∃ a, x = .ok a ∧ f a = .ok b := by
  cases x with
  | error error | ok a => simp [bind, Except.bind]

def Fails (x : Except ε α) : Prop := ∃ error, x = .error error

theorem Fails.bind (h : Fails x) (f : α → Except ε β) : Fails (x >>= f) := by
  obtain ⟨error, rfl⟩ := h
  exact ⟨error, rfl⟩

theorem fails_bind {a : α} (h : x = .ok a) (hf : Fails (f a)) : Fails (x >>= f) := by
  subst h
  exact hf

theorem Fails.ne_ok (h : Fails x) (a : α) : x ≠ .ok a := by
  obtain ⟨error, rfl⟩ := h
  exact nofun

end Fallible
