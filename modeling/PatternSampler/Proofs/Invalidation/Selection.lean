/-
# Which nodes are eligible

The eligible nodes are listed in ascending order, each of them once.  So it does not count in which
order, or how often, the candidates were marked: one of the eligible nodes is drawn by its rank.

* `eraseReps_cons_cons` : repetitions are left out one after the other.
* `Tree.mem_eligible` and `Tree.pairwise_eligible` : the list of the eligible nodes.
* `Tree.breakable` : the eligible nodes as a set, with `Tree.bijOn_nth_breakable` for their ranks.
* `Tree.selectInvalid_eq_nth` : which node is chosen.
-/
import Mathlib
import PatternSampler.Invalidation.Basic

namespace PatternSampler

/-! ## Lists without repetitions -/

/-- The first of two places in a row is left out if it is the same as the second. -/
theorem eraseReps_cons_cons (id id' : ℕ) (ids : List ℕ) : (id :: id' :: ids).eraseReps =
    if id = id' then (id' :: ids).eraseReps else id :: (id' :: ids).eraseReps := by
  have loop (ids : List ℕ) (first : ℕ) (before : List ℕ) :
      List.eraseRepsBy.loop (· == ·) first ids before =
        before.reverse ++ List.eraseRepsBy.loop (· == ·) first ids [] := by
    induction ids generalizing first before with
    | nil => exact List.reverse_cons
    | cons next ids ih =>
      rw [List.eraseRepsBy.loop, List.eraseRepsBy.loop]
      cases first == next with
      | true => exact ih first before
      | false =>
        show List.eraseRepsBy.loop _ next ids (first :: before) = _ ++
          List.eraseRepsBy.loop _ next ids [first]
        rw [ih next (first :: before), ih next [first], List.reverse_cons, List.append_assoc]
        rfl
  show List.eraseRepsBy.loop (· == ·) id (id' :: ids) [] = _
  rw [List.eraseRepsBy.loop]
  by_cases eq : id = id'
  · rw [if_pos eq, eq, beq_self_eq_true]
    rfl
  · rw [if_neg eq, beq_eq_false_iff_ne.2 eq]
    exact loop ids id' [id]

theorem mem_eraseReps {ids : List ℕ} {id : ℕ} : id ∈ ids.eraseReps ↔ id ∈ ids := by
  induction ids with
  | nil => exact Iff.rfl
  | cons first ids ih =>
    cases ids with
    | nil => exact Iff.rfl
    | cons next ids =>
      rw [eraseReps_cons_cons]
      split
      · next eq => simp [ih, eq]
      · simp [ih]

/-- Of places in ascending order each is left once. -/
theorem pairwise_eraseReps {ids : List ℕ} (sorted : ids.Pairwise (· ≤ ·)) :
    ids.eraseReps.Pairwise (· < ·) := by
  induction ids with
  | nil => exact .nil
  | cons first ids ih =>
    cases ids with
    | nil => exact List.pairwise_singleton _ _
    | cons next ids =>
      obtain ⟨least, others⟩ := List.pairwise_cons.1 sorted
      rw [eraseReps_cons_cons]
      split
      · exact ih others
      · next ne =>
        refine List.pairwise_cons.2 ⟨fun id mem => ?_, ih others⟩
        have le := least next List.mem_cons_self
        -- the next place is greater, and all others are not less than that
        rcases List.mem_cons.1 (mem_eraseReps.1 mem) with rfl | mem
        · omega
        · have := (List.pairwise_cons.1 others).1 id mem
          omega

/-! ## Eligible nodes -/

namespace Tree

variable {t : Tree} {candidates : List ℕ}

/-- **The eligible nodes are the candidates that can break their rule.** -/
theorem mem_eligible {id : ℕ} :
    id ∈ t.eligible candidates ↔ id ∈ candidates ∧ t.isInvalidatable id = true := by
  rw [eligible, mem_eraseReps, List.mem_mergeSort, List.mem_filter]

/-- They are listed in ascending order, each once. -/
theorem pairwise_eligible (t : Tree) (candidates : List ℕ) :
    (t.eligible candidates).Pairwise (· < ·) :=
  pairwise_eraseReps (List.pairwise_mergeSort' (· ≤ ·) _)

/-- The different candidates that can break their rule. -/
def breakable (t : Tree) (candidates : List ℕ) : Finset ℕ :=
  candidates.toFinset.filter fun id => t.isInvalidatable id

theorem mem_breakable {id : ℕ} :
    id ∈ t.breakable candidates ↔ id ∈ candidates ∧ t.isInvalidatable id = true := by
  rw [breakable, Finset.mem_filter, List.mem_toFinset]

theorem breakable_eq_empty_iff :
    t.breakable candidates = ∅ ↔ ∀ id ∈ candidates, t.isInvalidatable id = false := by
  simp only [Finset.eq_empty_iff_forall_notMem, mem_breakable, not_and, Bool.not_eq_true]

/-- Neither the order of the candidates counts nor how often each of them was marked. -/
theorem breakable_congr {others : List ℕ} (same : ∀ id, id ∈ others ↔ id ∈ candidates) :
    t.breakable others = t.breakable candidates := by
  ext id
  rw [mem_breakable, mem_breakable, same id]

/-- The list of the eligible nodes is their set, sorted. -/
theorem eligible_eq_sort (t : Tree) (candidates : List ℕ) :
    t.eligible candidates = (t.breakable candidates).sort := by
  refine (t.pairwise_eligible candidates).eq_of_mem_iff
    (Finset.sortedLT_sort _).pairwise fun id => ?_
  rw [mem_eligible, Finset.mem_sort, mem_breakable]

theorem length_eligible (t : Tree) (candidates : List ℕ) :
    (t.eligible candidates).length = (t.breakable candidates).card := by
  rw [eligible_eq_sort, Finset.length_sort]

theorem exists_finite_breakable (t : Tree) (candidates : List ℕ) :
    ∃ finite : (Set.ofPred (· ∈ t.breakable candidates)).Finite,
      finite.toFinset = t.breakable candidates := by
  have finite : (Set.ofPred (· ∈ t.breakable candidates)).Finite :=
    (t.breakable candidates).finite_toSet
  refine ⟨finite, ?_⟩
  ext id
  exact finite.mem_toFinset

/-- What stands at a place of the list is the eligible node of that rank. -/
theorem getD_eligible (t : Tree) (candidates : List ℕ) (rank : ℕ) :
    (t.eligible candidates).getD rank 0 = Nat.nth (· ∈ t.breakable candidates) rank := by
  obtain ⟨finite, all⟩ := t.exists_finite_breakable candidates
  rw [Nat.nth_eq_getD_sort finite, all, eligible_eq_sort]

/-- **Each eligible node has one rank** below their number. -/
theorem bijOn_nth_breakable (t : Tree) (candidates : List ℕ) :
    Set.BijOn (Nat.nth (· ∈ t.breakable candidates)) (Set.Iio (t.breakable candidates).card)
      (t.breakable candidates) := by
  obtain ⟨finite, all⟩ := t.exists_finite_breakable candidates
  have image := Nat.image_nth_Iio_card finite
  have injective := Nat.nth_injOn finite
  rw [all] at image injective
  have bijective := injective.bijOn_image
  rwa [image] at bijective

/-! ## Choosing one -/

variable {σ : Type} [RandomSource σ]

/-- One draw decides, and none is made where nothing is eligible. -/
theorem selectInvalid_eq (t : Tree) (candidates : List ℕ) (pattern : String) (g : σ) :
    t.selectInvalid candidates pattern g =
      if t.breakable candidates = ∅ then .error (.nothingToInvalidate pattern) g
      else
        let (rank, g') := RandomSource.draw (.below (t.breakable candidates).card) g
        .ok (Nat.nth (· ∈ t.breakable candidates) rank) g' := by
  have none : (t.eligible candidates).isEmpty = true ↔ t.breakable candidates = ∅ := by
    rw [List.isEmpty_iff, ← List.length_eq_zero_iff, length_eligible, Finset.card_eq_zero]
  unfold selectInvalid
  dsimp only
  by_cases empty : t.breakable candidates = ∅
  · rw [if_pos (none.2 empty), if_pos empty]
    rfl
  · rw [if_neg (mt none.1 empty), if_neg empty, ← getD_eligible, ← length_eligible]
    rfl

/-- The node that is chosen to break its rule is a candidate that can break it. -/
theorem selectInvalid_eq_ok {pattern : String} {g g' : σ} {id : ℕ}
    (run : t.selectInvalid candidates pattern g = .ok id g') :
    id ∈ candidates ∧ t.isInvalidatable id = true := by
  rw [selectInvalid_eq] at run
  split at run
  · cases run
  · next some =>
    cases run
    have pos := Finset.card_pos.2 (Finset.nonempty_iff_ne_empty.2 some)
    have lt := Span.mem_below.1 (RandomSource.draw_mem _ g pos)
    exact mem_breakable.1 ((t.bijOn_nth_breakable candidates).mapsTo lt)

/-- **One of the eligible nodes is drawn by its rank.**  Choosing fails, and draws nothing, exactly
if no candidate can break its rule.  Else a rank below the number of the eligible nodes is drawn,
each of which has one such rank, and the node of that rank is chosen.  So candidates that are the
same up to their order and repetitions lead to the same choice. -/
theorem selectInvalid_eq_nth (t : Tree) (candidates : List ℕ) (pattern : String) (g : σ) :
    let eligible := t.breakable candidates
    let drawn := RandomSource.draw (.below eligible.card) g
    (t.selectInvalid candidates pattern g = .error (.nothingToInvalidate pattern) g ↔
        ∀ id ∈ candidates, t.isInvalidatable id = false) ∧
      ((∃ id ∈ candidates, t.isInvalidatable id = true) → drawn.1 < eligible.card ∧
        t.selectInvalid candidates pattern g = .ok (Nat.nth (· ∈ eligible) drawn.1) drawn.2) ∧
      Set.BijOn (Nat.nth (· ∈ eligible)) (Set.Iio eligible.card) eligible ∧
      ∀ others, (∀ id, id ∈ others ↔ id ∈ candidates) →
        t.selectInvalid others pattern g = t.selectInvalid candidates pattern g := by
  intro eligible drawn
  have step := t.selectInvalid_eq candidates pattern g
  refine ⟨?_, ?_, t.bijOn_nth_breakable candidates, fun others same => ?_⟩
  · rw [step, ← breakable_eq_empty_iff]
    split
    · next empty => exact iff_of_true rfl empty
    · next some => exact iff_of_false (by rintro ⟨⟩) some
  · rintro ⟨id, mem, own⟩
    have some : id ∈ eligible := mem_breakable.2 ⟨mem, own⟩
    refine ⟨?_, step.trans (if_neg (Finset.ne_empty_of_mem some))⟩
    exact Span.mem_below.1 (RandomSource.draw_mem _ g (Finset.card_pos.2 ⟨id, some⟩))
  · rw [step, selectInvalid_eq, breakable_congr same]

end Tree

end PatternSampler
