/-
# Groups in scope

A backreference finds the text of its group if nothing between the two leaves open whether there is
one.  What leaves it open is a choice, a repetition that may be left out, and one that goes on
without bounds over a body that may read nothing.  Such a node above the group does no harm if the
backreference stands below the same child of it: then the group has been gone through whenever the
backreference is reached.

* `Tree.InScope` : a backreference stands where its group is settled.
* `Tree.Block.mem_settled` : a group is settled by the part it stands in, unless a node of the part
  leaves it open.
* `Tree.ready_of_inScope` : the expression of a part is ready if the groups before it are known.
-/
import PatternSampler.Proofs.Generation.Ready
import PatternSampler.Proofs.Invalidation.Path

namespace PatternSampler

/-- Whether an expression leaves open what the parts below it have produced: a choice does, and so
does a repetition that may be left out, or that may go on with occurrences that read nothing. -/
def Expr.leavesOpen : Expr → Bool
  | alternation _ _ => true
  | repetition _ body bounds _ => bounds.least = 0 || bounds.most.isNone && !body.fills
  | _ => false

namespace Tree

variable {t : Tree}

/-- A group is in scope at a node if the nodes that leave the group open stand above both, and both
below the same child. -/
def InScope (t : Tree) (group id : ℕ) : Prop :=
  ∀ above child, t.Owns above child → t.Leads child group → (t.expr above).leavesOpen = true →
    t.Leads child id

/-! ## What is settled -/

theorem mem_settledAll {es : List Expr} {key : GroupKey} :
    key ∈ Expr.settledAll es ↔ ∃ e ∈ es, key ∈ e.settled := by
  induction es with
  | nil =>
    rw [Expr.settledAll]
    simp
  | cons e es ih =>
    rw [Expr.settledAll, Set.mem_union, ih]
    simp

/-- What is settled are capturing groups up to the node. -/
theorem capture?_of_mem_settled (ordered : t.Ordered) {id : ℕ} {key : GroupKey}
    (mem : key ∈ (t.expr id).settled) : key.1 ≤ id ∧ t.capture? key.1 = some key.2 := by
  induction id using Nat.strong_induction_on with
  | _ id ih =>
    rcases look : t.shape? id with _ | shape
    · rw [expr_eq_default look, Expr.settled] at mem
      exact absurd mem (Set.notMem_empty key)
    have earlier := ordered id shape look
    -- what a child settles stands before the node
    have inner {r : ℕ} (hr : r ∈ shape.references) (mem : key ∈ (t.expr r).settled) :
        key.1 ≤ id ∧ t.capture? key.1 = some key.2 := by
      obtain ⟨le, own⟩ := ih r (earlier r hr) mem
      exact ⟨le.trans (earlier r hr).le, own⟩
    rw [expr_eq ordered look] at mem
    cases shape with
    | text | set | alternation | backref =>
      rw [Shape.unfold, Expr.settled] at mem
      exact absurd mem (Set.notMem_empty key)
    | concat parts =>
      rw [Shape.unfold, Expr.settled, mem_settledAll] at mem
      obtain ⟨_, he, mem⟩ := mem
      obtain ⟨r, hr, rfl⟩ := List.mem_map.1 he
      exact inner hr mem
    | repetition body bounds same =>
      rw [Shape.unfold, Expr.settled] at mem
      exact inner List.mem_cons_self mem.1
    | group body name capture =>
      cases capture with
      | none =>
        rw [Shape.unfold, Expr.settled] at mem
        exact inner List.mem_cons_self mem
      | some n =>
        rw [Shape.unfold, Expr.settled] at mem
        rcases mem with rfl | mem
        · exact ⟨le_rfl, capture?_of_shape? look⟩
        · exact inner List.mem_cons_self mem

/-- A group is settled by the part it stands in if no node of the part leaves it open. -/
theorem Block.mem_settled (ordered : t.Ordered) {first id place n : ℕ} (block : t.Block first id)
    (le : first ≤ place) (le' : place ≤ id) (own : t.capture? place = some n)
    (closed : ∀ above ≤ id, ∀ child, t.Owns above child → t.Leads child place →
      (t.expr above).leavesOpen = false) : (place, n) ∈ (t.expr id).settled := by
  induction id using Nat.strong_induction_on generalizing first with
  | _ id ih =>
    cases block with
    | node look row =>
      obtain ⟨shape, found, rfl⟩ := exists_shape_of_children? look
      rw [expr_eq ordered found]
      rcases le'.eq_or_lt with rfl | lt
      -- the node is the group itself
      · obtain ⟨shape', found', capture⟩ := Option.bind_eq_some_iff.1 own
        cases found.symm.trans found'
        cases shape <;> cases capture
        exact Set.mem_insert _ _
      -- the group stands in a child, which settles it, and the node passes that on
      obtain ⟨first', child, mem, inner, le₁, le₂⟩ := row.exists_part le lt
      have before := (row.bounds child mem).2
      have settled := ih child before inner le₁ le₂ fun above le => closed above (le.trans before.le)
      have sure := closed id le_rfl child ⟨shape, found, mem⟩ (inner.leads le₁ le₂)
      rw [expr_eq ordered found] at sure
      cases shape with
      | text | set | backref => cases mem
      | concat parts =>
        rw [Shape.unfold, Expr.settled, mem_settledAll]
        exact ⟨t.expr child, List.mem_map_of_mem mem, settled⟩
      | alternation branches => cases sure
      | repetition body bounds same =>
        cases List.mem_singleton.1 mem
        obtain ⟨least, kept⟩ := Bool.or_eq_false_iff.1 sure
        refine ⟨settled, Nat.pos_of_ne_zero (of_decide_eq_false least), ?_⟩
        rcases Bool.and_eq_false_iff.1 kept with most | fills
        · exact Or.inl (Option.isNone_eq_false_iff.1 most)
        · exact Or.inr (by rwa [Bool.not_eq_false'] at fills)
      | group body name capture =>
        cases List.mem_singleton.1 mem
        cases capture with
        | none => exact settled
        | some m => exact Set.mem_insert_of_mem _ settled

/-! ## Readiness -/

variable {settings : Settings}

/-- Every backreference replays a group that is in scope. -/
def Recalls (t : Tree) (settings : Settings) : Prop :=
  ∀ id target, t.shape? id = some (.backref target) →
    settings.backrefs = .replay ∧ t.InScope target id

/-- The groups that are known before a place: only capturing groups, and among them all that are
referred to from there on. -/
structure KnownBefore (t : Tree) (first : ℕ) (known : Set GroupKey) : Prop where
  groups : ∀ key ∈ known, key.1 < first ∧ t.capture? key.1 = some key.2
  targets : ∀ id target n, t.shape? id = some (.backref target) → target < first → first ≤ id →
    t.capture? target = some n → (target, n) ∈ known

/-- In the beginning nothing needs to be known. -/
theorem KnownBefore.start (t : Tree) : t.KnownBefore 0 ∅ where
  groups := fun _ mem => absurd mem (Set.notMem_empty _)
  targets := fun _ _ _ _ lt => absurd lt (Nat.not_lt_zero _)

/-- Behind a part, what it settles is known as well. -/
theorem KnownBefore.behind (ordered : t.Ordered) (recalls : t.Recalls settings) {first id : ℕ}
    {known : Set GroupKey} (h : t.KnownBefore first known) (block : t.Block first id) :
    t.KnownBefore (id + 1) (known ∪ (t.expr id).settled) where
  groups := by
    rintro key (mem | mem)
    · obtain ⟨lt, own⟩ := h.groups key mem
      exact ⟨lt.trans_le (block.le.trans (Nat.le_succ id)), own⟩
    · obtain ⟨le, own⟩ := capture?_of_mem_settled ordered mem
      exact ⟨Nat.lt_succ_of_le le, own⟩
  targets := by
    intro backref target n found lt later own
    by_cases before : target < first
    · have later' : first ≤ backref := block.le.trans ((Nat.le_succ id).trans later)
      exact Or.inl (h.targets backref target n found before later' own)
    refine Or.inr (block.mem_settled ordered (not_lt.1 before) (Nat.le_of_lt_succ lt) own ?_)
    -- a node of the part has no child that leads to the backreference, which stands behind the part
    intro above le child owns leads
    by_contra opened
    have both := (recalls backref target found).2 above child owns leads
      (Bool.eq_true_of_not_eq_false opened)
    have : backref ≤ child := both.le ordered
    have : child < above := owns.lt ordered
    omega

/-- Behind a branch of an alternation the same groups are known as before it: no group of the branch
is referred to from outside. -/
theorem KnownBefore.past (ordered : t.Ordered) (recalls : t.Recalls settings)
    {first child id : ℕ} {branches : List ℕ} {known : Set GroupKey} (h : t.KnownBefore first known)
    (found : t.shape? id = some (.alternation branches)) (mem : child ∈ branches)
    (block : t.Block first child) : t.KnownBefore (child + 1) known where
  groups := by
    intro key mem
    obtain ⟨lt, own⟩ := h.groups key mem
    exact ⟨lt.trans_le (block.le.trans (Nat.le_succ child)), own⟩
  targets := by
    intro backref target n found' lt later own
    by_cases before : target < first
    · have later' : first ≤ backref := block.le.trans ((Nat.le_succ child).trans later)
      exact h.targets backref target n found' before later' own
    have opened : (t.expr id).leavesOpen = true := by
      rw [expr_eq ordered found]
      rfl
    have both := (recalls backref target found').2 id child ⟨_, found, mem⟩
      (block.leads (not_lt.1 before) (Nat.le_of_lt_succ lt)) opened
    exact absurd (both.le ordered) (Nat.not_le_of_lt later)

/-- Along a row of parts more and more groups are known. -/
theorem inTurn_of_row (ordered : t.Ordered) (recalls : t.Recalls settings) {first stop : ℕ}
    {ids : List ℕ} {known : Set GroupKey} (row : Row t.Block first ids stop)
    (each : ∀ child < stop, ∀ {first : ℕ} {known : Set GroupKey}, t.Block first child →
      t.KnownBefore first known → (t.expr child).Ready settings known)
    (h : t.KnownBefore first known) :
    Expr.InTurn (Expr.Ready settings) known (ids.map t.expr) := by
  induction row generalizing known with
  | nil first => exact .nil
  | cons le block others ih =>
    have head := each _ others.le block h
    exact .cons head (ih each (h.behind ordered recalls block))

/-- Before each branch of an alternation the same groups are known. -/
theorem ready_of_branches (ordered : t.Ordered) (recalls : t.Recalls settings)
    {first stop id : ℕ} {branches ids : List ℕ} {known : Set GroupKey}
    (found : t.shape? id = some (.alternation branches)) (row : Row t.Block first ids stop)
    (sub : ids ⊆ branches)
    (each : ∀ child < stop, ∀ {first : ℕ} {known : Set GroupKey}, t.Block first child →
      t.KnownBefore first known → (t.expr child).Ready settings known)
    (h : t.KnownBefore first known) : ∀ child ∈ ids, (t.expr child).Ready settings known := by
  induction row with
  | nil first => simp
  | cons le block others ih =>
    intro child mem
    rcases List.mem_cons.1 mem with rfl | mem
    · exact each child others.le block h
    · have past := h.past ordered recalls found (sub List.mem_cons_self) block
      exact ih (fun _ mem => sub (List.mem_cons_of_mem _ mem)) each past child mem

/-- **A part is ready if the groups before it are known** and all that are referred to are in
scope. -/
theorem ready_of_inScope (well : t.WellFormed) (recalls : t.Recalls settings) {first id : ℕ}
    {known : Set GroupKey} (block : t.Block first id) (h : t.KnownBefore first known) :
    (t.expr id).Ready settings known := by
  induction id using Nat.strong_induction_on generalizing first known with
  | _ id ih =>
    cases block with
    | node look row =>
      obtain ⟨shape, found, rfl⟩ := exists_shape_of_children? look
      rw [expr_eq well.ordered found]
      cases shape with
      | text chars => exact .text
      | set s => exact .set
      | concat parts =>
        exact .concat (inTurn_of_row well.ordered recalls row (fun child lt {_ _} => ih child lt) h)
      | alternation branches =>
        refine .alternation (by simpa using well.branches id branches found) fun e he => ?_
        obtain ⟨child, mem, rfl⟩ := List.mem_map.1 he
        exact ready_of_branches well.ordered recalls found row (List.Subset.refl branches)
          (fun child lt {_ _} => ih child lt) h child mem
      | repetition body bounds same =>
        cases row with
        | cons le inner others => exact .repetition (ih body others.le inner h)
      | group body name capture =>
        cases row with
        | cons le inner others =>
          have ready := ih body others.le inner h
          cases capture with
          | none => exact .group ready
          | some n =>
            -- all groups that are known stand before this one, and numbers are unique
            refine .capture ready fun key mem => ?_
            have lt : key.1 < id ∧ t.capture? key.1 = some key.2 := by
              obtain ⟨lt, own⟩ := (h.behind well.ordered recalls inner).groups key mem
              exact ⟨lt.trans_le others.le, own⟩
            refine ⟨lt.1.ne, fun eq => ?_⟩
            rw [eq] at lt
            exact lt.1.ne (well.unique _ _ n lt.2 (capture?_of_shape? found))
      | backref target =>
        cases row
        obtain ⟨mode, -⟩ := recalls id target found
        obtain ⟨body, name, n, group⟩ := well.targets id target found
        have lt : target < id := well.ordered id _ found target List.mem_cons_self
        have mem := h.targets id target n found lt le_rfl (capture?_of_shape? group)
        rw [Shape.unfold, expr_eq well.ordered group]
        exact .backref mode mem

end Tree

end PatternSampler
