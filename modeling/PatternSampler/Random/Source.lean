/-
# Random sources

A random source answers requests for one number of a span.  Nothing else is assumed of it than that
the answer lies in the span, so what is proved over every source holds for every outcome of chance.
A span keeps the form in which it was asked for, since the size of its upper end as written decides
how many random bits a choice takes.

* `Span.low` and `Span.count` give the least number of a span and how many numbers it holds, and
  `n ∈ s` says that `n` is one of them.
* `RandomSource` is the interface, with its law `draw_mem`.
* `Sampling` is the type of actions that draw from a source and may fail; a failure leaves the
  source where the last draw left it.
-/
import PatternSampler.Error

namespace PatternSampler

/-! ## Spans -/

/-- Consecutive natural numbers, one of which is to be chosen. -/
inductive Span where
  /-- The numbers from zero up to, but without, `bound`. -/
  | below (bound : Nat)
  /-- The numbers from `low` to `high`, both included. -/
  | between (low high : Nat)
deriving DecidableEq

namespace Span

/-- The least number of the span. -/
def low : Span → Nat
  | below _ => 0
  | between lo _ => lo

/-- How many numbers the span holds. -/
def count : Span → Nat
  | below bound => bound
  | between lo hi => hi + 1 - lo

/-- The upper end as it was written. -/
def upper : Span → Nat
  | below bound => bound
  | between _ hi => hi

instance : Membership Nat Span :=
  ⟨fun s n => s.low ≤ n ∧ n < s.low + s.count⟩

theorem mem_iff {s : Span} {n : Nat} : n ∈ s ↔ s.low ≤ n ∧ n < s.low + s.count :=
  Iff.rfl

instance (n : Nat) (s : Span) : Decidable (n ∈ s) :=
  inferInstanceAs (Decidable (_ ∧ _))

@[simp]
theorem mem_below {n bound : Nat} : n ∈ below bound ↔ n < bound := by
  simp [mem_iff, low, count]

@[simp]
theorem mem_between {n lo hi : Nat} : n ∈ between lo hi ↔ lo ≤ n ∧ n ≤ hi := by
  simp only [mem_iff, low, count]
  omega

/-- The least number belongs to a span that is not empty. -/
theorem low_mem {s : Span} (h : 0 < s.count) : s.low ∈ s := by
  simp only [mem_iff]
  omega

end Span

/-! ## Sources -/

/-- States of type `σ` from which numbers can be drawn. -/
class RandomSource (σ : Type) where
  /-- Draws one number of a span; the second component is the source afterwards. -/
  draw : Span → σ → Nat × σ
  /-- A draw from a span that is not empty stays in the span. -/
  draw_mem : ∀ (s : Span) (g : σ), 0 < s.count → (draw s g).1 ∈ s

/-- An action that draws from a source of type `σ` and ends with a value or an error. -/
abbrev Sampling (σ α : Type) := EStateM SampleError σ α

/-- Draws one number of a span. -/
def draw {σ : Type} [RandomSource σ] (s : Span) : Sampling σ Nat := fun g =>
  let (n, g) := RandomSource.draw s g
  .ok n g

end PatternSampler
