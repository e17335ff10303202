/-
# What a generated text offers

A text that the generator has produced is offered to the matcher.  Wherever the rest of the input
begins with it, and the groups that are known have captured what the generator remembers of them,
the matcher can read it; it leaves the known groups alone and captures what the generator
remembers of those that are settled.

* `Offers` is that statement, `Offers.seq` puts two texts together.
* `exists_repeats` : texts of the same expression one after the other, as often as bounds allow.
-/
import PatternSampler.Proofs.Matching.Basic
import PatternSampler.Proofs.Generation.Ready

namespace PatternSampler

/-- What is remembered of each group. -/
abbrev Texts := ℕ → Option (List Char)

/-- What has been captured is what is remembered. -/
def Agrees (known : Set GroupKey) (texts : Texts) (captures : Captures) : Prop :=
  ∀ key ∈ known, ∃ chars, texts key.1 = some chars ∧ captures key.2 = some chars

/-- Something is remembered of each known group. -/
def Remembered (known : Set GroupKey) (texts : Texts) : Prop :=
  ∀ key ∈ known, ∃ chars, texts key.1 = some chars

/-- Nothing changed about known groups, as the generator remembers them. -/
def Unchanged (known : Set GroupKey) (before after : Texts) : Prop :=
  ∀ key ∈ known, after key.1 = before key.1

/-- A part of a match that begins with a text and leaves the known groups alone. -/
structure Reached (known : Set GroupKey) (chars : List Char) (s t : Place) : Prop where
  pos : t.pos = s.pos + chars.length
  captures : ∀ key ∈ known, t.captures key.2 = s.captures key.2

/-- A text that was generated can be matched by the passage `D`. -/
structure Offers (input : List Char) (known settled : Set GroupKey) (before after : Texts)
    (chars : List Char) (D : Passage) : Prop where
  unchanged : Unchanged known before after
  remembered : Remembered settled after
  leads : ∀ s : Place, chars <+: input.drop s.pos → Agrees known before s.captures →
    ∃ t, D s t ∧ Reached known chars s t ∧ Agrees (known ∪ settled) after t.captures

variable {input : List Char} {known settled settled₁ settled₂ : Set GroupKey}
  {before between after : Texts} {chars chars₁ chars₂ : List Char} {D D₁ D₂ : Passage}

/-! ## Agreement -/

theorem Agrees.mono {fewer : Set GroupKey} {captures : Captures}
    (h : Agrees known before captures) (sub : fewer ⊆ known) : Agrees fewer before captures :=
  fun key mem => h key (sub mem)

theorem Agrees.congr {captures : Captures} (h : Agrees known before captures)
    (same : Unchanged known before after) : Agrees known after captures := by
  intro key mem
  rw [same key mem]
  exact h key mem

theorem Remembered.congr (h : Remembered known before) (same : Unchanged known before after) :
    Remembered known after := by
  intro key mem
  rw [same key mem]
  exact h key mem

theorem Agrees.reached {s t : Place} (h : Agrees known before s.captures)
    (reached : Reached known chars s t) : Agrees known before t.captures := by
  intro key mem
  rw [reached.captures key mem]
  exact h key mem

theorem Reached.refl (s : Place) : Reached known [] s s :=
  ⟨rfl, fun _ _ => rfl⟩

theorem Reached.trans {s t u : Place} (first : Reached known chars₁ s t)
    (second : Reached known chars₂ t u) : Reached known (chars₁ ++ chars₂) s u where
  pos := by rw [second.pos, first.pos, List.length_append, Nat.add_assoc]
  captures := fun key mem => (second.captures key mem).trans (first.captures key mem)

/-! ## Offers -/

namespace Offers

theorem map {D' : Passage} (h : Offers input known settled before after chars D)
    (imp : ∀ s t, D s t → D' s t) : Offers input known settled before after chars D' where
  unchanged := h.unchanged
  remembered := h.remembered
  leads := by
    intro s pre agrees
    obtain ⟨t, run, rest⟩ := h.leads s pre agrees
    exact ⟨t, imp s t run, rest⟩

/-- Fewer groups may be said to be settled. -/
theorem weaken {fewer : Set GroupKey} (h : Offers input known settled before after chars D)
    (sub : fewer ⊆ settled) : Offers input known fewer before after chars D where
  unchanged := h.unchanged
  remembered := fun key mem => h.remembered key (sub mem)
  leads := by
    intro s pre agrees
    obtain ⟨t, run, reached, agrees'⟩ := h.leads s pre agrees
    exact ⟨t, run, reached, agrees'.mono (Set.union_subset_union_right known sub)⟩

/-- What is remembered of other groups before does not matter. -/
theorem congr {before' : Texts} (h : Offers input known settled before after chars D)
    (same : Unchanged known before' before) :
    Offers input known settled before' after chars D where
  unchanged := fun key mem => (h.unchanged key mem).trans (same key mem)
  remembered := h.remembered
  leads := fun s pre agrees => h.leads s pre (agrees.congr same)

/-- A text that is read without touching any group. -/
theorem reads (texts : Texts) (chars : List Char) :
    Offers input known ∅ texts texts chars (Reads input chars) where
  unchanged := fun _ _ => rfl
  remembered := fun _ mem => absurd mem (Set.notMem_empty _)
  leads := by
    intro s pre agrees
    refine ⟨⟨s.pos + chars.length, s.captures⟩, ⟨pre, rfl⟩, ⟨rfl, fun _ _ => rfl⟩, ?_⟩
    rwa [Set.union_empty]

/-- Two texts one after the other; what the first one settles is known to the second one. -/
theorem seq (first : Offers input known settled₁ before between chars₁ D₁)
    (second : Offers input (known ∪ settled₁) settled₂ between after chars₂ D₂) :
    Offers input known (settled₁ ∪ settled₂) before after (chars₁ ++ chars₂)
      (Relation.Comp D₁ D₂) where
  unchanged := fun key mem =>
    (second.unchanged key (Or.inl mem)).trans (first.unchanged key mem)
  remembered := by
    rintro key (mem | mem)
    · rw [second.unchanged key (Or.inr mem)]
      exact first.remembered key mem
    · exact second.remembered key mem
  leads := by
    intro s pre agrees
    obtain ⟨pre₁, pre₂⟩ := append_prefix_drop.1 pre
    obtain ⟨t, run₁, reached₁, agrees₁⟩ := first.leads s pre₁ agrees
    rw [← reached₁.pos] at pre₂
    obtain ⟨u, run₂, reached₂, agrees₂⟩ := second.leads t pre₂ agrees₁
    refine ⟨u, ⟨t, run₁, run₂⟩, reached₁.trans ⟨reached₂.pos, fun key mem =>
      reached₂.captures key (Or.inl mem)⟩, ?_⟩
    rwa [← Set.union_assoc]

end Offers

/-! ## Repetition -/

variable {R : Expr → Passage} {e : Expr} {occs : List (List Char × Texts)}

/-- The texts of some occurrences, put together. -/
def joined (occs : List (List Char × Texts)) : List Char :=
  (occs.map Prod.fst).flatten

/-- All occurrences are matched, and in the end what the last one left is remembered. -/
theorem exists_inOrder
    (each : ∀ occ ∈ occs, Offers input known settled before occ.2 occ.1 (R e)) {s : Place}
    (pre : joined occs <+: input.drop s.pos) (agrees : Agrees known before s.captures) :
    ∃ t, InOrder R (List.replicate occs.length e) s t ∧ Reached known (joined occs) s t ∧
      ∀ occ ∈ occs.getLast?, Agrees (known ∪ settled) occ.2 t.captures := by
  induction occs generalizing s with
  | nil => exact ⟨s, .nil s, .refl s, by simp⟩
  | cons occ occs ih =>
    obtain ⟨pre₁, pre₂⟩ := append_prefix_drop.1 pre
    obtain ⟨t, run, reached, agrees'⟩ :=
      (each occ List.mem_cons_self).leads s pre₁ agrees
    rw [← reached.pos] at pre₂
    obtain ⟨u, runs, reached', last⟩ :=
      ih (fun occ mem => each occ (List.mem_cons_of_mem _ mem)) pre₂ (agrees.reached reached)
    refine ⟨u, .cons run runs, reached.trans reached', ?_⟩
    cases occs with
    | nil =>
      cases runs
      rintro _ ⟨⟩
      exact agrees'
    | cons occ' occs =>
      rw [List.getLast?_cons_cons]
      exact last

/-- Occurrences without a text are passed over. -/
theorem exists_advancing
    (each : ∀ occ ∈ occs, Offers input known settled before occ.2 occ.1 (R e)) {s : Place}
    (pre : joined occs <+: input.drop s.pos) (agrees : Agrees known before s.captures) :
    ∃ fewer t, Advancing R (List.replicate fewer e) s t ∧ Reached known (joined occs) s t := by
  induction occs generalizing s with
  | nil => exact ⟨0, s, .nil s, .refl s⟩
  | cons occ occs ih =>
    have tail := fun occ' mem => each occ' (List.mem_cons_of_mem occ mem)
    obtain ⟨pre₁, pre₂⟩ := append_prefix_drop.1 pre
    by_cases empty : occ.1 = []
    · have same : joined (occ :: occs) = joined occs := by
        rw [joined, List.map_cons, List.flatten_cons, empty, List.nil_append]
        rfl
      rw [empty] at pre₂
      rw [same]
      exact ih tail pre₂ agrees
    · obtain ⟨t, run, reached, -⟩ := (each occ List.mem_cons_self).leads s pre₁ agrees
      rw [← reached.pos] at pre₂
      obtain ⟨fewer, u, runs, reached'⟩ := ih tail pre₂ (agrees.reached reached)
      refine ⟨fewer + 1, u, .cons run ?_ runs, reached.trans reached'⟩
      rw [reached.pos]
      exact Nat.lt_add_of_pos_right (List.length_pos_iff.2 empty)

/-- **As many occurrences as the bounds allow are matched by a repetition.**  What the last one left
is remembered in the end, unless there is no upper bound and it may have read nothing: then it is
passed over. -/
theorem exists_repeats {bounds : Bounds} (allows : bounds.Allows occs.length)
    (each : ∀ occ ∈ occs, Offers input known settled before occ.2 occ.1 (R e)) {s : Place}
    (pre : joined occs <+: input.drop s.pos) (agrees : Agrees known before s.captures) :
    ∃ t, bounds.Repeats R e s t ∧ Reached known (joined occs) s t ∧
      (bounds.most.isSome ∨ (∀ s t, R e s t → s.pos < t.pos) →
        ∀ occ ∈ occs.getLast?, Agrees (known ∪ settled) occ.2 t.captures) := by
  obtain ⟨least, most⟩ := bounds
  obtain ⟨le, upper⟩ := allows
  by_cases kept : most.isSome ∨ ∀ s t, R e s t → s.pos < t.pos
  · obtain ⟨t, runs, reached, last⟩ := exists_inOrder each pre agrees
    obtain ⟨extra, split⟩ := Nat.exists_eq_add_of_le le
    rw [split, List.replicate_add, InOrder.append] at runs
    obtain ⟨u, first, others⟩ := runs
    refine ⟨t, ⟨u, first, ?_⟩, reached, fun _ => last⟩
    cases most with
    | some most =>
      have room : extra ≤ most - least := by
        have : occs.length ≤ max least most := upper most rfl
        have : occs.length = least + extra := split
        omega
      exact ⟨extra, room, others⟩
    | none =>
      have grows := kept.resolve_left Bool.false_ne_true
      exact ⟨extra, others.advancing fun e' he => List.eq_of_mem_replicate he ▸ grows⟩
  · obtain rfl : most = none := by
      rcases most with _ | most
      · rfl
      · exact absurd (Or.inl rfl) kept
    -- the least number of occurrences is matched one by one, of the others those that read something
    have split : joined occs = joined (occs.take least) ++ joined (occs.drop least) := by
      rw [joined, joined, joined, ← List.flatten_append, ← List.map_append, List.take_append_drop]
    rw [split] at pre ⊢
    obtain ⟨pre₁, pre₂⟩ := append_prefix_drop.1 pre
    obtain ⟨t, first, reached, -⟩ :=
      exists_inOrder (fun occ mem => each occ (List.mem_of_mem_take mem)) pre₁ agrees
    rw [← reached.pos] at pre₂
    obtain ⟨fewer, u, others, reached'⟩ := exists_advancing
      (fun occ mem => each occ (List.mem_of_mem_drop mem)) pre₂ (agrees.reached reached)
    rw [List.length_take_of_le le] at first
    exact ⟨u, ⟨t, first, fewer, others⟩, reached.trans reached', fun h => absurd h kept⟩

end PatternSampler
