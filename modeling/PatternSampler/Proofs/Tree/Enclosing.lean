/-
# Nodes in groups

Some nodes of a tree are put in groups of their own, groups that do not capture.  Each group stands
right behind its node, so the nodes keep their order and each of them moves back by the number of
groups before it.  What refers to a node refers to its group instead.

* `Tree.inner` and `Tree.outer` : where a node stands then, and where its group does if it has one.
* `Tree.Enclosed` : a tree with some nodes in groups, built up by `adopt` and `enclose`.
* `Tree.Enclosed.branch?_reserve` : reserved paths in it.
-/
import PatternSampler.Proofs.Invalidation.Path

namespace PatternSampler

/-! ## Shapes -/

namespace Shape

/-- A shape that refers to other places. -/
def moved (f : ℕ → ℕ) : Shape → Shape
  | text chars => text chars
  | set s => set s
  | concat parts => concat (parts.map f)
  | alternation branches => alternation (branches.map f)
  | repetition body bounds same => repetition (f body) bounds same
  | group body name capture => group (f body) name capture
  | backref target => backref (f target)

/-- Only sets and what is put together of several parts are put in groups. -/
inductive Enclosable : Shape → Prop
  | set (s : CharSet) : Enclosable (set s)
  | concat (parts : List ℕ) : Enclosable (concat parts)
  | alternation (branches : List ℕ) : Enclosable (alternation branches)
  | repetition (body : ℕ) (bounds : Bounds) (same : Bool) : Enclosable (repetition body bounds same)

variable {f g : ℕ → ℕ}

/-- The children move with the node. -/
theorem children_moved (f : ℕ → ℕ) (shape : Shape) :
    (shape.moved f).children = shape.children.map f := by
  cases shape <;> rfl

/-- Whether a node can break its rule does not depend on places. -/
theorem isInvalidatable_moved (f : ℕ → ℕ) (shape : Shape) :
    (shape.moved f).isInvalidatable = shape.isInvalidatable := by
  cases shape <;> rfl

theorem capture?_moved (f : ℕ → ℕ) (shape : Shape) :
    (shape.moved f).capture? = shape.capture? := by
  cases shape <;> rfl

/-- Only where the references lead counts. -/
theorem moved_congr {shape : Shape} (same : ∀ r ∈ shape.references, f r = g r) :
    shape.moved f = shape.moved g := by
  cases shape with
  | text | set => rfl
  | concat parts => exact congrArg concat (List.map_congr_left same)
  | alternation branches => exact congrArg alternation (List.map_congr_left same)
  | repetition body bounds same' => rw [moved, moved, same body List.mem_cons_self]
  | group body name capture => rw [moved, moved, same body List.mem_cons_self]
  | backref target => rw [moved, moved, same target List.mem_cons_self]

end Shape

namespace Tree

/-! ## Places -/

/-- Where a node stands if the nodes of `s` are put in groups. -/
def inner (s : Finset ℕ) (id : ℕ) : ℕ :=
  id + Nat.count (· ∈ s) id

/-- Where the group of a node stands if it has one, else where the node itself does. -/
def outer (s : Finset ℕ) (id : ℕ) : ℕ :=
  id + Nat.count (· ∈ s) (id + 1)

variable {s s' : Finset ℕ} {id id' n : ℕ}

/-- The next node stands behind the group of a node. -/
theorem inner_succ (s : Finset ℕ) (id : ℕ) : inner s (id + 1) = outer s id + 1 := by
  unfold inner outer
  omega

/-- A group stands directly behind its node. -/
theorem outer_of_mem (mem : id ∈ s) : outer s id = inner s id + 1 := by
  rw [outer, inner, Nat.count_succ, if_pos mem]
  rfl

/-- A node without a group is its own outside. -/
theorem outer_of_notMem (other : id ∉ s) : outer s id = inner s id := by
  rw [outer, inner, Nat.count_succ, if_neg other]
  rfl

theorem inner_le_outer (s : Finset ℕ) (id : ℕ) : inner s id ≤ outer s id :=
  Nat.add_le_add_left (Nat.count_monotone _ (Nat.le_succ id)) id

/-- Nodes keep their order. -/
theorem inner_strictMono (s : Finset ℕ) : StrictMono (inner s) :=
  strictMono_nat_of_lt_succ fun id => (inner_le_outer s id).trans_lt (inner_succ s id).ge

/-- A node with its group comes before the next node. -/
theorem outer_lt_inner (lt : id < id') : outer s id < inner s id' :=
  (inner_succ s id).ge.trans ((inner_strictMono s).monotone lt)

theorem outer_strictMono (s : Finset ℕ) : StrictMono (outer s) :=
  fun _ _ lt => (outer_lt_inner lt).trans_le (inner_le_outer s _)

/-- A group stands where no node stands. -/
theorem inner_ne_outer (mem : id ∈ s) (id' : ℕ) : inner s id' ≠ outer s id := by
  intro eq
  rcases lt_or_ge id id' with lt | le
  · exact (outer_lt_inner lt).ne eq.symm
  · have before := (inner_strictMono s).monotone le
    have behind := outer_of_mem mem
    omega

/-- The inside of a node is the outside of no other one. -/
theorem eq_of_inner_eq_outer (eq : inner s id' = outer s id) : id' = id := by
  by_cases mem : id ∈ s
  · exact absurd eq (inner_ne_outer mem id')
  · exact (inner_strictMono s).injective (eq.trans (outer_of_notMem mem))

/-- At every place there is a node or the group of a node. -/
theorem exists_of_lt_inner {place : ℕ} (lt : place < inner s n) :
    ∃ id < n, place = inner s id ∨ id ∈ s ∧ place = outer s id := by
  induction n with
  | zero => cases lt
  | succ n ih =>
    rw [inner_succ] at lt
    by_cases before : place < inner s n
    · obtain ⟨id, lt, here⟩ := ih before
      exact ⟨id, lt.trans n.lt_succ_self, here⟩
    · refine ⟨n, n.lt_succ_self, ?_⟩
      by_cases mem : n ∈ s
      · have behind := outer_of_mem mem
        by_cases own : place = inner s n
        · exact .inl own
        · exact .inr ⟨mem, by omega⟩
      · have same := outer_of_notMem mem
        exact .inl (by omega)

/-- Only the groups in front of a node count for its place. -/
theorem inner_congr (same : ∀ i < n, i ∈ s' ↔ i ∈ s) (le : id ≤ n) : inner s' id = inner s id := by
  induction id with
  | zero => rfl
  | succ id ih =>
    have before := ih (Nat.le_of_succ_le le)
    rw [inner_succ, inner_succ]
    by_cases mem : id ∈ s
    · rw [outer_of_mem mem, outer_of_mem ((same id le).2 mem), before]
    · rw [outer_of_notMem mem, outer_of_notMem (mt (same id le).1 mem), before]

/-- Where a node stands depends on the groups before it only. -/
theorem outer_congr (same : ∀ i < n, i ∈ s' ↔ i ∈ s) (lt : id < n) : outer s' id = outer s id :=
  Nat.succ.inj ((inner_succ s' id).symm.trans ((inner_congr same lt).trans (inner_succ s id)))

theorem mem_insert_iff (lt : id' < id) : id' ∈ insert id s ↔ id' ∈ s := by
  rw [Finset.mem_insert]
  exact or_iff_right lt.ne

/-- A group that is put behind a node takes the place of the next node. -/
theorem outer_insert (other : id ∉ s) : outer (insert id s) id = inner s (id + 1) := by
  rw [outer_of_mem (Finset.mem_insert_self id s), inner_congr (fun _ => mem_insert_iff) le_rfl,
    inner_succ, outer_of_notMem other]

/-! ## Trees -/

/-- A tree is another one with the nodes of `s` in groups. -/
structure Enclosed (s : Finset ℕ) (t t' : Tree) : Prop where
  size : t'.size = inner s t.size
  nodes : ∀ id shape, t.shape? id = some shape →
    t'.shape? (inner s id) = some (shape.moved (outer s))
  groups : ∀ id ∈ s, t'.shape? (outer s id) = some (.group (inner s id) none none)
  enclosable : ∀ id ∈ s, ∃ shape, t.shape? id = some shape ∧ shape.Enclosable

namespace Enclosed

variable {t t' : Tree} {shape : Shape}

/-- No node, and none in a group. -/
theorem empty : Enclosed ∅ {} {} where
  size := rfl
  nodes := by
    intro id shape look
    simp [shape?] at look
  groups := by simp
  enclosable := by simp

theorem lt_size (h : Enclosed s t t') (mem : id ∈ s) : id < t.size := by
  obtain ⟨shape, look, -⟩ := h.enclosable id mem
  exact lt_size_of_shape? look

/-- What is put in a group may be put in one. -/
theorem enclosable_of_mem (h : Enclosed s t t') (mem : id ∈ s) (look : t.shape? id = some shape) :
    shape.Enclosable := by
  obtain ⟨shape', look', enclosable⟩ := h.enclosable id mem
  exact Option.some.inj (look'.symm.trans look) ▸ enclosable

/-- A group is not put in another one. -/
theorem notMem_of_group (h : Enclosed s t t') {body : ℕ} {name : Option String}
    {capture : Option ℕ} (group : t.shape? id = some (.group body name capture)) : id ∉ s := by
  intro mem
  have enclosable := h.enclosable_of_mem mem group
  cases enclosable

/-- A node is put in front of all that come later. -/
theorem adopt (h : Enclosed s t t') (shape : Shape) :
    Enclosed s (t.adopt shape) (t'.adopt (shape.moved (outer s))) where
  size := by
    have other : t.size ∉ s := fun mem => lt_irrefl _ (h.lt_size mem)
    rw [size_adopt, size_adopt, inner_succ, outer_of_notMem other, h.size]
  nodes := by
    intro id found look
    rw [shape?_adopt] at look ⊢
    by_cases new : id = t.size
    · rw [if_pos new] at look
      rw [new, if_pos h.size.symm, Option.some.inj look]
    · rw [if_neg new] at look
      rw [h.size, if_neg fun eq => new ((inner_strictMono s).injective eq)]
      exact h.nodes id found look
  groups := by
    intro id mem
    have lt : outer s id < t'.size := h.size ▸ outer_lt_inner (h.lt_size mem)
    rw [shape?_adopt_of_lt lt]
    exact h.groups id mem
  enclosable := by
    intro id mem
    rw [shape?_adopt_of_lt (h.lt_size mem)]
    exact h.enclosable id mem

/-- The last node is put in a group. -/
theorem enclose (h : Enclosed s t t') (ordered : t.Ordered) (last : t.size = id + 1)
    (look : t.shape? id = some shape) (enclosable : shape.Enclosable) (other : id ∉ s) :
    Enclosed (insert id s) t (t'.adopt (.group (inner s id) none none)) := by
  have same : ∀ i < id, i ∈ insert id s ↔ i ∈ s := fun _ => mem_insert_iff
  have own : outer (insert id s) id = t'.size := by rw [outer_insert other, h.size, last]
  have before {i : ℕ} (lt : i < id + 1) : inner s i < t'.size := by
    rw [h.size, last]
    exact inner_strictMono s lt
  constructor
  · rw [size_adopt, last, inner_succ, own]
  · intro i shape look'
    have lt : i < id + 1 := last ▸ lt_size_of_shape? look'
    have le : i ≤ id := Nat.le_of_lt_succ lt
    have refs := Shape.moved_congr fun r mem =>
      outer_congr same ((ordered i shape look' r mem).trans_le le)
    rw [inner_congr same le, refs, shape?_adopt_of_lt (before lt)]
    exact h.nodes i shape look'
  · intro i mem
    rcases Finset.mem_insert.1 mem with rfl | mem
    · rw [own, inner_congr same le_rfl, shape?_adopt, if_pos rfl]
    · have lt : i < id := by
        have := h.lt_size mem
        have : i ≠ id := fun eq => other (eq ▸ mem)
        omega
      rw [outer_congr same lt, inner_congr same lt.le, shape?_adopt_of_lt]
      · exact h.groups i mem
      · exact (outer_lt_inner lt).trans (before id.lt_succ_self)
  · intro i mem
    rcases Finset.mem_insert.1 mem with rfl | mem
    · exact ⟨shape, look, enclosable⟩
    · exact h.enclosable i mem

/-! ### What is at a place -/

/-- Where no node stood before, there is none but a group. -/
theorem cases_shape? (h : Enclosed s t t') {place : ℕ} {shape' : Shape}
    (look : t'.shape? place = some shape') :
    (∃ id shape, place = inner s id ∧ t.shape? id = some shape ∧
      shape' = shape.moved (outer s)) ∨
      ∃ id ∈ s, place = outer s id ∧ shape' = .group (inner s id) none none := by
  have lt : place < inner s t.size := h.size ▸ lt_size_of_shape? look
  obtain ⟨id, earlier, rfl | ⟨mem, rfl⟩⟩ := exists_of_lt_inner lt
  · obtain ⟨shape, here⟩ := exists_shape? earlier
    exact .inl ⟨id, shape, rfl, here, Option.some.inj (look.symm.trans (h.nodes id shape here))⟩
  · exact .inr ⟨id, mem, rfl, Option.some.inj (look.symm.trans (h.groups id mem))⟩

/-- A node refers to the groups of those that it referred to. -/
theorem shape?_inner (h : Enclosed s t t') (id : ℕ) :
    t'.shape? (inner s id) = (t.shape? id).map (Shape.moved (outer s)) := by
  rcases look : t.shape? id with _ | shape
  · have none : t'.shape? (inner s id) = none := by
      by_contra some
      obtain ⟨shape', look'⟩ := Option.ne_none_iff_exists'.1 some
      rcases h.cases_shape? look' with ⟨id', shape, eq, here, -⟩ | ⟨id', mem, eq, -⟩
      · rw [(inner_strictMono s).injective eq, here] at look
        cases look
      · exact inner_ne_outer mem id eq
    rw [none]
    rfl
  · exact h.nodes id shape look

/-- **Groups are not eligible**, and other nodes are if they were. -/
theorem isInvalidatable_inner (h : Enclosed s t t') (id : ℕ) :
    t'.isInvalidatable (inner s id) = t.isInvalidatable id := by
  rw [isInvalidatable, isInvalidatable, h.shape?_inner, Option.any_map]
  congr 1
  funext shape
  exact shape.isInvalidatable_moved _

/-- No group can break its rule. -/
theorem exists_eq_inner (h : Enclosed s t t') {place : ℕ}
    (invalidatable : t'.isInvalidatable place = true) : ∃ id < t.size, place = inner s id := by
  obtain ⟨shape', look, own⟩ := (Option.any_eq_true _ _).1 invalidatable
  rcases h.cases_shape? look with ⟨id, shape, rfl, here, -⟩ | ⟨id, mem, -, rfl⟩
  · exact ⟨id, lt_size_of_shape? here, rfl⟩
  · cases own

/-! ### Owners -/

/-- A node owns the groups of its children. -/
theorem owns_inner (h : Enclosed s t t') {child : ℕ} (owns : t.Owns id child) :
    t'.Owns (inner s id) (outer s child) := by
  obtain ⟨shape, look, mem⟩ := owns
  refine ⟨_, h.nodes id shape look, ?_⟩
  rw [Shape.children_moved]
  exact List.mem_map_of_mem mem

/-- A group owns its node. -/
theorem owns_outer (h : Enclosed s t t') (mem : id ∈ s) : t'.Owns (outer s id) (inner s id) :=
  ⟨_, h.groups id mem, List.mem_cons_self⟩

/-- What owns a node or a group: the node that owned it, or its own group. -/
theorem cases_owns (h : Enclosed s t t') {place below : ℕ} (owns : t'.Owns place below) :
    (∃ id child, place = inner s id ∧ below = outer s child ∧ t.Owns id child) ∨
      ∃ id ∈ s, place = outer s id ∧ below = inner s id := by
  obtain ⟨shape', look, mem⟩ := owns
  rcases h.cases_shape? look with ⟨id, shape, rfl, here, rfl⟩ | ⟨id, own, rfl, rfl⟩
  · rw [Shape.children_moved] at mem
    obtain ⟨child, below, rfl⟩ := List.mem_map.1 mem
    exact .inl ⟨id, child, rfl, rfl, shape, here, below⟩
  · exact .inr ⟨id, own, rfl, List.mem_singleton.1 mem⟩

/-- A group leads to its node. -/
theorem leads_self (h : Enclosed s t t') (id : ℕ) : t'.Leads (outer s id) (inner s id) := by
  by_cases mem : id ∈ s
  · exact .single (h.owns_outer mem)
  · rw [outer_of_notMem mem]
    exact .refl

/-- A way down stays one. -/
theorem leads (h : Enclosed s t t') {place : ℕ} (leads : t.Leads id place) :
    t'.Leads (outer s id) (inner s place) := by
  induction leads with
  | refl => exact h.leads_self id
  | tail _ owns ih => exact (ih.tail (h.owns_inner owns)).trans (h.leads_self _)

/-- A way down to a node was one before. -/
theorem leads_of (h : Enclosed s t t') {above place : ℕ} (leads : t'.Leads above (inner s place))
    (here : above = inner s id ∨ above = outer s id) : t.Leads id place := by
  induction leads using Relation.ReflTransGen.head_induction_on generalizing id with
  | refl =>
    have own : place = id :=
      here.elim (fun eq => (inner_strictMono s).injective eq) eq_of_inner_eq_outer
    rw [own]
    exact .refl
  | head owns _ ih =>
    rcases h.cases_owns owns with ⟨id', child, rfl, rfl, before⟩ | ⟨id', mem, rfl, rfl⟩
    · have own : id' = id :=
        here.elim (fun eq => (inner_strictMono s).injective eq) eq_of_inner_eq_outer
      exact .head (own ▸ before) (ih (.inr rfl))
    · rcases here with eq | eq
      · exact absurd eq.symm (inner_ne_outer mem id)
      · exact ih (.inl (congrArg (inner s) ((outer_strictMono s).injective eq)))

/-- **Reserved paths go on through the same nodes.** -/
theorem branch?_reserve (h : Enclosed s t t') (ordered : t.Ordered) (linked : t.Linked)
    (ordered' : t'.Ordered) (linked' : t'.Linked) (place id : ℕ) :
    (t'.reserve (inner s place)).branch? (inner s id) =
      ((t.reserve place).branch? id).map (outer s) := by
  ext below
  rw [Tree.branch?_reserve ordered' linked', Option.map_eq_some_iff]
  constructor
  · rintro ⟨owns, leads⟩
    rcases h.cases_owns owns with ⟨id', child, eq, rfl, owns⟩ | ⟨id', mem, eq, -⟩
    · obtain rfl := (inner_strictMono s).injective eq
      exact ⟨child, (Tree.branch?_reserve ordered linked).2 ⟨owns, h.leads_of leads (.inr rfl)⟩, rfl⟩
    · exact absurd eq (inner_ne_outer mem id)
  · rintro ⟨child, found, rfl⟩
    obtain ⟨owns, leads⟩ := (Tree.branch?_reserve ordered linked).1 found
    exact ⟨h.owns_inner owns, h.leads leads⟩

end Enclosed

end Tree

end PatternSampler
