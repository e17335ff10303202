/-
# Numbers of times near the limit

Sums stop at the greatest number of 64 bits, so the spans from which a number of times is drawn
might come out empty or turned around there, or reach into the bounds that they should stay out of.
A record of all spans that are asked for shows that none of this happens.

* `Recorded` is a random source that keeps a record of the spans it is asked for.
* `Settles` : an action ends with a value of some kind, and all that it asks for fits.
* `Bounds.Representable.settles_drawValid` and `settles_drawInvalid` : the two ways of drawing.
* `Bounds.draws_of_representable` : both, for all bounds and every slack.
-/
import PatternSampler.Proofs.Generation.Draws
import PatternSampler.Random.Words

namespace PatternSampler

/-! ## Records of draws -/

/-- A random source with the spans that it was asked for, the last one first. -/
structure Recorded (σ : Type) where
  /-- Where random numbers come from. -/
  source : σ
  /-- The spans that numbers were drawn from. -/
  asked : List Span := []

instance {σ : Type} [RandomSource σ] : RandomSource (Recorded σ) where
  draw s g :=
    let (n, source) := RandomSource.draw s g.source
    (n, { source, asked := s :: g.asked })
  draw_mem s g h := RandomSource.draw_mem s g.source h

/-- A span holds a number, and its ends are numbers of 64 bits. -/
structure Span.Fits (s : Span) : Prop where
  some : 0 < s.count
  upper : s.upper ≤ maxCount

variable {σ α β : Type}

/-- An action ends with a value for which `Q` holds, in the same way without the record, and all
spans that it asks for fit. -/
def Settles (x : Sampling (Recorded σ) α) (y : Sampling σ α) (Q : α → Prop) : Prop :=
  ∀ g, (∀ s ∈ g.asked, s.Fits) → ∃ a g', x g = .ok a g' ∧ y g.source = .ok a g'.source ∧
    (∀ s ∈ g'.asked, s.Fits) ∧ Q a

namespace Settles

variable {x : Sampling (Recorded σ) α} {y : Sampling σ α} {Q R : α → Prop}

theorem pure {a : α} (h : Q a) : Settles (pure a : Sampling (Recorded σ) α) (pure a) Q :=
  fun g fits => ⟨a, g, rfl, rfl, fits, h⟩

/-- A draw asks for one span. -/
theorem draw [RandomSource σ] {s : Span} (fits : s.Fits) :
    Settles (draw s : Sampling (Recorded σ) ℕ) (draw s) (· ∈ s) :=
  fun g others => ⟨_, _, rfl, rfl, List.forall_mem_cons.2 ⟨fits, others⟩,
    RandomSource.draw_mem s g.source fits.some⟩

/-- What is done afterwards may rely on what was drawn. -/
theorem bind {f : α → Sampling (Recorded σ) β} {f' : α → Sampling σ β} {P : β → Prop}
    (first : Settles x y Q) (second : ∀ a, Q a → Settles (f a) (f' a) P) :
    Settles (x >>= f) (y >>= f') P := by
  intro g fits
  obtain ⟨a, g₁, run, run', fits₁, h⟩ := first g fits
  obtain ⟨b, g₂, others, others', fits₂, h'⟩ := second a h g₁ fits₁
  exact ⟨b, g₂, bind_eq_ok_iff.2 ⟨a, g₁, run, others⟩,
    bind_eq_ok_iff.2 ⟨a, g₁.source, run', others'⟩, fits₂, h'⟩

theorem mono (h : Settles x y Q) (imp : ∀ a, Q a → R a) : Settles x y R := by
  intro g fits
  obtain ⟨a, g', run, run', fits', h'⟩ := h g fits
  exact ⟨a, g', run, run', fits', imp a h'⟩

end Settles

/-! ## Numbers of times -/

theorem addCount_le (m n : ℕ) : addCount m n ≤ maxCount :=
  min_le_right _ _

namespace Bounds

variable [RandomSource σ] {b : Bounds}

/-- The greatest number of times is one of 64 bits. -/
theorem Representable.ceiling_le (h : b.Representable) (slack : ℕ) :
    b.ceiling slack ≤ maxCount := by
  unfold ceiling
  rcases bounded : b.most with _ | most
  · exact addCount_le _ _
  · exact (h.most most bounded).2

/-- A number of times within the bounds, at least one where the repetition must not be left out. -/
theorem Representable.settles_drawValid (h : b.Representable) (slack : ℕ) (reserved : Bool) :
    Settles (b.drawValid slack reserved : Sampling (Recorded σ) ℕ) (b.drawValid slack reserved)
      (b.Within slack reserved) := by
  unfold drawValid
  split
  · exact .pure ⟨le_rfl, le_max_left _ _⟩
  · next lt =>
    have fits : (Span.between (b.floor reserved) (b.ceiling slack)).Fits := by
      refine ⟨?_, h.ceiling_le slack⟩
      show 0 < b.ceiling slack + 1 - b.floor reserved
      omega
    refine (Settles.draw fits).mono fun count mem => ?_
    obtain ⟨floor, ceiling⟩ := Span.mem_between.1 mem
    exact ⟨floor, ceiling.trans (le_max_right _ _)⟩

/-- Sums that stop at the greatest number leave a span that is not empty. -/
theorem fits_above (b : Bounds) (slack : ℕ) : (b.above slack).Fits :=
  ⟨b.count_above_pos slack, addCount_le _ _⟩

/-- A number of times outside of the bounds, if the repetition is eligible and there is room above
them. -/
theorem Representable.settles_drawInvalid (h : b.Representable) (slack : ℕ) :
    Settles (b.drawInvalid slack : Sampling (Recorded σ) ℕ) (b.drawInvalid slack) fun count =>
      count ≤ maxCount ∧ ((0 < b.least ∨ b.most.isSome) →
        (∀ most, b.most = some most → most < maxCount) → b.Outside slack count) := by
  have coin : (Span.below 2).Fits := ⟨Nat.two_pos, by decide⟩
  refine (Settles.draw coin).bind fun toss _ => ?_
  split
  · next high =>
    refine (Settles.draw (b.fits_above slack)).mono fun count mem => ?_
    refine ⟨(Span.mem_between.1 mem).2.trans (addCount_le _ _), fun eligible room => .inr ?_⟩
    obtain ⟨most, bounded⟩ := exists_most high eligible
    exact ⟨most, bounded, (mem_above_iff bounded (room most bounded)).1 mem⟩
  · next low =>
    have pos : 0 < b.least := Nat.pos_of_ne_zero fun zero => low (.inr zero)
    have fits : (Span.below b.least).Fits := ⟨pos, h.least⟩
    refine (Settles.draw fits).mono fun count mem => ?_
    have lt : count < b.least := Span.mem_below.1 mem
    exact ⟨(lt.trans_le h.least).le, fun _ _ => .inl lt⟩

/-- **Numbers of times stay where they belong, up to the limit.**  For bounds of 64 bits in order
and every slack, each span that is asked for holds a number and ends within 64 bits, and so does the
number that is drawn from it.  A valid number of times lies between the least one and the greatest
one, or the least one and the slack; on the reserved path it is at least one.  An invalid one lies
below the bounds or above them, no further than the slack reaches, unless there is no room above
them; where the repetition is unbounded it lies below. -/
theorem draws_of_representable (h : b.Representable) (slack : ℕ) (g : σ) :
    let record : Recorded σ := { source := g }
    let ceiling := b.most.getD (min (b.least + slack) maxCount)
    (∀ reserved, ∃ count g', b.drawValid slack reserved record = .ok count g' ∧
      b.drawValid slack reserved g = .ok count g'.source ∧
      (∀ s ∈ g'.asked, s.Fits) ∧ count ≤ maxCount ∧
      if reserved then max 1 b.least ≤ count ∧ count ≤ max 1 ceiling
      else b.least ≤ count ∧ count ≤ ceiling) ∧
    ∃ count g', b.drawInvalid slack record = .ok count g' ∧
      b.drawInvalid slack g = .ok count g'.source ∧
      (∀ s ∈ g'.asked, s.Fits) ∧ count ≤ maxCount ∧
      (∀ most, b.most = some most → most < maxCount →
        count < b.least ∨ most < count ∧ count ≤ min (most + max slack 1) maxCount) ∧
      (b.most = none → 0 < b.least → count < b.least) := by
  intro record ceiling
  refine ⟨fun reserved => ?_, ?_⟩
  · obtain ⟨count, g', run, run', fits, within⟩ :=
      h.settles_drawValid slack reserved record (List.forall_mem_nil _)
    refine ⟨count, g', run, run', fits, ?_⟩
    have limit : max 1 (b.ceiling slack) ≤ maxCount := max_le (by decide) (h.ceiling_le slack)
    cases reserved with
    | true =>
      have bounds := within.of_reserved h
      exact ⟨bounds.2.trans limit, bounds⟩
    | false =>
      have bounds := within.of_representable h
      exact ⟨bounds.2.trans (h.ceiling_le slack), bounds⟩
  · obtain ⟨count, g', run, run', fits, limit, outside⟩ :=
      h.settles_drawInvalid slack record (List.forall_mem_nil _)
    refine ⟨count, g', run, run', fits, limit, fun most bounded room => ?_, fun unbounded pos => ?_⟩
    · have some : b.most.isSome := by
        rw [bounded]
        rfl
      refine (outside (.inr some) fun other bounded' => ?_).imp_right ?_
      · obtain rfl := Option.some.inj (bounded.symm.trans bounded')
        exact room
      · rintro ⟨other, bounded', above⟩
        obtain rfl := Option.some.inj (bounded.symm.trans bounded')
        exact above
    · refine (outside (.inl pos) fun most bounded => ?_).resolve_right ?_
      · cases unbounded.symm.trans bounded
      · rintro ⟨most, bounded, -⟩
        cases unbounded.symm.trans bounded

/-- There is room for one number above these bounds, however great the slack is. -/
theorem draws_of_representable_limit :
    Representable ⟨3, some (maxCount - 1)⟩ ∧ ∃ count g',
      drawInvalid ⟨3, some (maxCount - 1)⟩ maxCount
        (⟨.ofWords #[4294967295], []⟩ : Recorded WordStream) = .ok count g' ∧
      g'.asked = [.between maxCount maxCount, .below 2] ∧ (∀ s ∈ g'.asked, s.Fits) ∧
      count = maxCount := by
  have h : Representable ⟨3, some (maxCount - 1)⟩ := by
    refine ⟨by decide, ?_⟩
    rintro _ ⟨⟩
    exact ⟨by decide, by decide⟩
  obtain ⟨-, count, g', run, -, fits, -⟩ :=
    draws_of_representable h maxCount (WordStream.ofWords #[4294967295])
  have values : (match drawInvalid ⟨3, some (maxCount - 1)⟩ maxCount
        (⟨.ofWords #[4294967295], []⟩ : Recorded WordStream) with
      | .ok count g' => some (count, g'.asked)
      | .error _ _ => none) = some (maxCount, [.between maxCount maxCount, .below 2]) := by
    decide +kernel
  rw [run] at values
  obtain ⟨most, asked⟩ := Prod.mk.inj (Option.some.inj values)
  exact ⟨h, count, g', run, asked, fits, most⟩

end Bounds

end PatternSampler
