/-
# Drawing from a set

The number that is drawn for a choice from a set is the place of the chosen character among all that
may be chosen, in code point order.  So each of them is chosen for exactly one number, and the
search through the table always ends with one.

* `CharSet.Counted.pick_of_offered_eq_nil` and `CharSet.Counted.pick_of_offered_ne_nil` : a choice
  where nothing may be chosen, and where something may.
* `CharSet.pick_build` : a choice from a set that was built by any operations.
-/
import PatternSampler.Proofs.CharSet.Account
import PatternSampler.Proofs.Outcome

namespace PatternSampler

namespace CharSet

variable {set : CharSet} {invert : Bool}

/-- There are as many characters as the account says. -/
theorem Counted.length_offered (h : set.Counted) (invert : Bool) :
    (set.offered invert).length = if invert then set.excludable else set.selectable :=
  (CharSet.length_offered set invert).trans (h.count invert).symm

variable {σ : Type} [RandomSource σ] {g : σ}

/-- Where nothing may be chosen nothing is drawn. -/
theorem Counted.pick_of_offered_eq_nil (h : set.Counted) (none : set.offered invert = []) :
    set.pick invert g = .error .emptySet g := by
  have count := h.length_offered invert
  rw [none, List.length_nil] at count
  unfold CharSet.pick
  dsimp only
  rw [if_pos count.symm]
  rfl

/-- Otherwise one number is drawn, and it is the place of the chosen character. -/
theorem Counted.pick_of_offered_ne_nil (h : set.Counted) (some : set.offered invert ≠ []) :
    ∃ n g', ∃ lt : n < (set.offered invert).length,
      RandomSource.draw (.below (set.offered invert).length) g = (n, g') ∧
        set.pick invert g = .ok (set.offered invert)[n] g' := by
  have positive := List.length_pos_iff.2 some
  have inside := RandomSource.draw_mem (.below (set.offered invert).length) g positive
  rcases drawn : RandomSource.draw (.below (set.offered invert).length) g with ⟨n, g'⟩
  rw [drawn, Span.mem_below] at inside
  refine ⟨n, g', inside, rfl, ?_⟩
  unfold CharSet.pick
  dsimp only
  rw [← h.length_offered invert, if_neg positive.ne']
  refine bind_eq_ok_iff.2 ⟨n, g', ?_, ?_⟩
  · rw [draw, drawn]
  · rw [nth?_eq_getElem?, List.getElem?_eq_getElem inside]
    rfl

/-- **A choice is fair.**  It fails without a draw exactly if there is nothing to choose.  Otherwise
it draws one number below the number of characters that may be chosen, and returns the character
that has this place among them in code point order. -/
theorem pick_build (origin : Origin) (items : List ClassItem) (invert : Bool) :
    (∀ g : σ, (build origin items).pick invert g = .error .emptySet g ↔
      ∀ c : Char, c.toNat < (build origin items).listed.size →
        (build origin items).accepts c = invert) ∧
    ∃ cs : List Char, cs.Pairwise (· < ·) ∧
      (∀ c : Char, c ∈ cs ↔ c.toNat < (build origin items).listed.size ∧
        (build origin items).accepts c ≠ invert) ∧
      cs.length = (if invert then (build origin items).excludable
        else (build origin items).selectable) ∧
      (cs ≠ [] → ∀ g : σ, ∃ n g', ∃ lt : n < cs.length,
        RandomSource.draw (.below cs.length) g = (n, g') ∧
          (build origin items).pick invert g = .ok cs[n] g') := by
  have counted := counted_build origin items
  generalize build origin items = set at counted ⊢
  refine ⟨fun g => ⟨?_, ?_⟩, set.offered invert, pairwise_offered set invert, fun c => mem_offered,
    counted.length_offered invert, fun some g => counted.pick_of_offered_ne_nil some⟩
  · intro failed c covered
    by_contra candidate
    have some : set.offered invert ≠ [] := List.ne_nil_of_mem (mem_offered.2 ⟨covered, candidate⟩)
    obtain ⟨n, g', lt, -, chosen⟩ := counted.pick_of_offered_ne_nil (g := g) some
    cases failed.symm.trans chosen
  · intro none
    refine counted.pick_of_offered_eq_nil (List.eq_nil_iff_forall_not_mem.2 fun c mem => ?_)
    obtain ⟨covered, candidate⟩ := mem_offered.1 mem
    exact candidate (none c covered)

end CharSet

end PatternSampler
