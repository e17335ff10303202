/-
# Outcomes of actions

When a sequence of two actions that carry a state along succeeds, and when it fails.  Readers of
patterns and generators of strings are both actions of this kind.
-/
import Mathlib

namespace PatternSampler

variable {ε σ α β : Type} {x : EStateM ε σ α} {f : α → EStateM ε σ β} {s s' : σ}

/-- A sequence succeeds exactly if both actions do. -/
theorem bind_eq_ok_iff {b : β} :
    (x >>= f) s = .ok b s' ↔ ∃ a s₁, x s = .ok a s₁ ∧ f a s₁ = .ok b s' := by
  show EStateM.bind x f s = _ ↔ _
  unfold EStateM.bind
  cases x s <;> simp

/-- The same with a name for what the second action is. -/
theorem exists_of_bind_eq_ok {b : β} (run : (x >>= f) s = .ok b s') :
    ∃ a s₁ y, x s = .ok a s₁ ∧ f a = y ∧ y s₁ = .ok b s' := by
  obtain ⟨a, s₁, first, second⟩ := bind_eq_ok_iff.1 run
  exact ⟨a, s₁, f a, first, rfl, second⟩

/-- A sequence fails where one of the actions does. -/
theorem bind_eq_error_iff {e : ε} :
    (x >>= f) s = .error e s' ↔
      x s = .error e s' ∨ ∃ a s₁, x s = .ok a s₁ ∧ f a s₁ = .error e s' := by
  show EStateM.bind x f s = _ ↔ _
  unfold EStateM.bind
  cases x s <;> simp

/-- Behind a success the second action goes on. -/
theorem bind_of_eq_ok {a : α} (run : x s = .ok a s') : (x >>= f) s = f a s' := by
  show EStateM.bind x f s = _
  unfold EStateM.bind
  rw [run]

/-- Behind a failure nothing is done. -/
theorem bind_of_eq_error {e : ε} (run : x s = .error e s') : (x >>= f) s = .error e s' :=
  bind_eq_error_iff.2 (.inl run)

theorem map_eq_ok_iff {h : α → β} {b : β} :
    (h <$> x) s = .ok b s' ↔ ∃ a, x s = .ok a s' ∧ h a = b := by
  show EStateM.map h x s = _ ↔ _
  unfold EStateM.map
  cases x s <;> simp [and_comm]

theorem map_eq_error_iff {h : α → β} {e : ε} :
    (h <$> x) s = .error e s' ↔ x s = .error e s' := by
  show EStateM.map h x s = _ ↔ _
  unfold EStateM.map
  cases x s <;> simp

/-- What is done to an error does not touch a success. -/
theorem adaptExcept_eq_ok_iff {ε' : Type} {g : ε → ε'} {a : α} :
    x.adaptExcept g s = .ok a s' ↔ x s = .ok a s' := by
  unfold EStateM.adaptExcept
  cases x s <;> simp

end PatternSampler
