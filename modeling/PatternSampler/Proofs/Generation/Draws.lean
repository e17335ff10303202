/-
# What is drawn

Every draw stays in its span, so a character that is chosen is a candidate and a number of times
lies where it should: within the bounds of a repetition, or outside of them where the repetition is
to break its rule.  Drawing leaves alone what is remembered of groups.

* `draw_eq_ok`, `pick_eq_ok` : numbers and characters.
* `drawValid_eq_ok`, `drawInvalid_eq_ok` : numbers of times.
* `repeatText_eq`, `repeatLast_eq` : a text as often as a number says.
-/
import PatternSampler.Generation.Basic
import PatternSampler.Proofs.CharSet.Counting
import PatternSampler.Proofs.Generation.Offer
import PatternSampler.Proofs.Outcome
import PatternSampler.Proofs.Reading.Regular

namespace PatternSampler

variable {σ : Type} [RandomSource σ] {g g' : GenerationState σ}

/-- What is remembered of each group. -/
def GenerationState.texts (g : GenerationState σ) : Texts := fun id => g.captures[id]?

/-! ## Numbers and characters -/

theorem draw_eq_ok {s : Span} {n : ℕ} (run : draw s g = .ok n g') :
    g'.texts = g.texts ∧ (0 < s.count → n ∈ s) := by
  cases run
  exact ⟨rfl, RandomSource.draw_mem s g.source⟩

/-- A character that is chosen from a set is a candidate of the choice. -/
theorem pick_eq_ok {set : CharSet} {invert : Bool} {c : Char}
    (run : set.pick invert g = .ok c g') :
    c.toNat ∈ set.candidates invert ∧ g'.texts = g.texts := by
  unfold CharSet.pick at run
  dsimp only at run
  generalize (if invert = true then set.excludable else set.selectable) = count at run
  by_cases empty : count = 0
  · rw [if_pos empty] at run
    cases run
  · rw [if_neg empty] at run
    obtain ⟨rank, g₁, reader, drawn, eq, run⟩ := exists_of_bind_eq_ok run
    split at eq <;> subst eq
    · next c' found =>
      cases run
      exact ⟨CharSet.nth?_mem found, (draw_eq_ok drawn).1⟩
    · cases run

/-! ## Numbers of times -/

namespace Bounds

/-- A number of times lies between a least one and the ceiling, which the least one may exceed. -/
structure Within (b : Bounds) (slack : ℕ) (reserved : Bool) (count : ℕ) : Prop where
  floor : b.floor reserved ≤ count
  ceiling : count ≤ max (b.floor reserved) (b.ceiling slack)

/-- The number of times lies below the bounds, or above them where there is an upper one. -/
def Outside (b : Bounds) (slack count : ℕ) : Prop :=
  count < b.least ∨ ∃ most, b.most = some most ∧ most < count ∧
    count ≤ addCount most (max slack 1)

theorem floor_false (b : Bounds) : b.floor false = b.least :=
  if_neg fun both => Bool.false_ne_true both.2

theorem floor_true (b : Bounds) : b.floor true = max 1 b.least := by
  unfold floor
  by_cases zero : b.least = 0
  · rw [if_pos ⟨zero, rfl⟩, zero]
    rfl
  · rw [if_neg fun both => zero both.1]
    omega

/-- A number of times that is drawn where nothing is reserved is allowed. -/
theorem allows_of_within {b : Bounds} {slack count : ℕ} (h : b.Within slack false count) :
    b.Allows count := by
  obtain ⟨floor, ceiling⟩ := h
  rw [floor_false] at floor ceiling
  refine ⟨floor, fun most bounded => ?_⟩
  rwa [Bounds.ceiling, bounded] at ceiling

/-- Both bounds are numbers of 64 bits, and in order. -/
structure Representable (b : Bounds) : Prop where
  least : b.least ≤ maxCount
  most : ∀ most, b.most = some most → b.least ≤ most ∧ most ≤ maxCount

/-- The bounds that are accepted are far from where sums stop. -/
theorem Sensible.lt_maxCount {b : Bounds} (h : b.Sensible) {most : ℕ}
    (bounded : b.most = some most) : most < maxCount :=
  (h.most most bounded).2.trans_lt (by decide)

theorem Sensible.representable {b : Bounds} (h : b.Sensible) : b.Representable where
  least := h.least.trans (by decide)
  most := fun most bounded => ⟨(h.most most bounded).1, (h.lt_maxCount bounded).le⟩

/-- The least number of times is not above the ceiling. -/
theorem Representable.least_le_ceiling {b : Bounds} (h : b.Representable) (slack : ℕ) :
    b.least ≤ b.ceiling slack := by
  unfold ceiling
  rcases bounded : b.most with _ | most
  · exact le_min (Nat.le_add_right _ _) h.least
  · exact (h.most most bounded).1

/-- Between bounds in order the ceiling is not exceeded. -/
theorem Within.of_representable {b : Bounds} {slack count : ℕ} (h : b.Within slack false count)
    (representable : b.Representable) : b.least ≤ count ∧ count ≤ b.ceiling slack := by
  obtain ⟨floor, ceiling⟩ := h
  rw [floor_false] at floor ceiling
  rw [max_eq_right (representable.least_le_ceiling slack)] at ceiling
  exact ⟨floor, ceiling⟩

/-- A repetition that must not be left out is carried out at least once. -/
theorem Within.of_reserved {b : Bounds} {slack count : ℕ} (h : b.Within slack true count)
    (representable : b.Representable) :
    max 1 b.least ≤ count ∧ count ≤ max 1 (b.ceiling slack) := by
  obtain ⟨floor, ceiling⟩ := h
  rw [floor_true] at floor ceiling
  rw [max_assoc, max_eq_right (representable.least_le_ceiling slack)] at ceiling
  exact ⟨floor, ceiling⟩

/-- Some number of times can always be drawn from above the bounds. -/
theorem count_above_pos (b : Bounds) (slack : ℕ) : 0 < (b.above slack).count := by
  have le : addCount (b.ceiling slack) 1 ≤ addCount (b.ceiling slack) (max slack 1) :=
    min_le_min_right _ (Nat.add_le_add_left (le_max_right _ _) _)
  show 0 < addCount (b.ceiling slack) (max slack 1) + 1 - addCount (b.ceiling slack) 1
  omega

theorem addCount_one {most : ℕ} (room : most < maxCount) : addCount most 1 = most + 1 :=
  min_eq_left room

/-- If sums do not stop there, what is drawn from above the bounds lies above them. -/
theorem mem_above_iff {b : Bounds} {most : ℕ} (bounded : b.most = some most)
    (room : most < maxCount) {slack count : ℕ} :
    count ∈ b.above slack ↔ most < count ∧ count ≤ addCount most (max slack 1) := by
  rw [above, ceiling, bounded, Option.getD_some, Span.mem_between, addCount_one room,
    Nat.succ_le_iff]

/-- A repetition of which a number of times is drawn from above its bounds has an upper one, if it
is eligible. -/
theorem exists_most {b : Bounds} {coin : ℕ} (high : b.most.isSome ∧ coin = 1 ∨ b.least = 0)
    (eligible : 0 < b.least ∨ b.most.isSome) : ∃ most, b.most = some most := by
  refine Option.isSome_iff_exists.1 ?_
  rcases high with ⟨bounded, -⟩ | zero
  · exact bounded
  · exact eligible.resolve_left (by omega)

end Bounds

theorem drawValid_eq_ok {b : Bounds} {slack count : ℕ} {reserved : Bool}
    (run : b.draw slack false reserved g = .ok count g') :
    b.Within slack reserved count ∧ g'.texts = g.texts := by
  unfold Bounds.draw at run
  rw [if_neg Bool.false_ne_true] at run
  unfold Bounds.drawValid at run
  split at run
  · cases run
    exact ⟨⟨le_rfl, le_max_left _ _⟩, rfl⟩
  · next lt =>
    obtain ⟨texts, mem⟩ := draw_eq_ok run
    have within := Span.mem_between.1 (mem (by
      show 0 < b.ceiling slack + 1 - b.floor reserved
      omega))
    exact ⟨⟨within.1, within.2.trans (le_max_right _ _)⟩, texts⟩

/-- The number of times of a repetition that breaks its rule lies outside of its bounds, if anything
does. -/
theorem drawInvalid_eq_ok {b : Bounds} {slack count : ℕ} {reserved : Bool} (sensible : b.Sensible)
    (some : 0 < b.least ∨ b.most.isSome) (run : b.draw slack true reserved g = .ok count g') :
    b.Outside slack count ∧ g'.texts = g.texts := by
  unfold Bounds.draw at run
  rw [if_pos rfl] at run
  unfold Bounds.drawInvalid at run
  obtain ⟨coin, g₁, reader, tossed, eq, run⟩ := exists_of_bind_eq_ok run
  have same := (draw_eq_ok tossed).1
  split at eq <;> subst eq <;> obtain ⟨texts, mem⟩ := draw_eq_ok run
  · next high =>
    obtain ⟨most, bounded⟩ := Bounds.exists_most high some
    have above := mem (b.count_above_pos slack)
    rw [Bounds.mem_above_iff bounded (sensible.lt_maxCount bounded)] at above
    exact ⟨Or.inr ⟨most, bounded, above⟩, texts.trans same⟩
  · next low =>
    have least : 0 < b.least := by
      by_contra zero
      exact low (Or.inr (by omega))
    exact ⟨Or.inl (Span.mem_below.1 (mem least)), texts.trans same⟩

/-! ## Branches -/

/-- The text of one of several expressions. -/
theorem Expr.exists_generateNth {settings : Settings} {route : Route} {branches : List Expr}
    {n : ℕ} (lt : n < branches.length)
    {chars : List Char} (run : generateNth settings route branches n g = .ok chars g') :
    ∃ e ∈ branches, e.generate settings route g = .ok chars g' := by
  induction branches generalizing n with
  | nil => exact absurd lt (Nat.not_lt_zero n)
  | cons e es ih =>
    cases n with
    | zero =>
      rw [generateNth] at run
      exact ⟨e, List.mem_cons_self, run⟩
    | succ n =>
      rw [generateNth] at run
      obtain ⟨e', mem, run⟩ := ih (Nat.lt_of_succ_lt_succ lt) run
      exact ⟨e', List.mem_cons_of_mem e mem, run⟩

/-! ## Repeated texts -/

theorem repeatText_eq (count : ℕ) (chars : List Char) :
    repeatText count chars = (List.replicate count chars).flatten := by
  unfold repeatText
  split
  · next empty =>
    rw [List.isEmpty_iff.1 empty]
    simp
  · rfl

/-- Of a text with its last character repeated all but the last character stands in front. -/
theorem repeatLast_eq (count : ℕ) (chars : List Char) :
    repeatLast count chars =
      chars.dropLast ++ (List.replicate count chars.getLast?.toList).flatten := by
  unfold repeatLast
  rcases List.eq_nil_or_concat chars with rfl | ⟨others, last, rfl⟩
  · simp
  · simp

end PatternSampler
