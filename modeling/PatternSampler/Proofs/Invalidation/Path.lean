/-
# The path to a node

Where nodes know their owners, the reserved path to a node is made up of its ancestors, each with
the child that the node is or lies below.

* `Tree.Leads` : a node is another one or an ancestor of it.
* `Tree.Climbs` : what is noted on the way up from a node.
* `Tree.branch?_reserve` : what the reserved path says of a node.
-/
import PatternSampler.Invalidation.Basic
import PatternSampler.Proofs.Tree.Block

namespace PatternSampler

theorem Shape.mem_references {shape : Shape} {child : ℕ} (mem : child ∈ shape.children) :
    child ∈ shape.references := by
  cases shape with
  | backref target => cases mem
  | text | set | concat | alternation | repetition | group => exact mem

namespace Tree

variable {t : Tree} {id child place : ℕ}

/-- Owners come after the nodes that they own. -/
theorem Owns.lt (ordered : t.Ordered) (owns : t.Owns id child) : child < id := by
  obtain ⟨shape, look, mem⟩ := owns
  exact ordered id shape look child (Shape.mem_references mem)

theorem Owns.lt_size (owns : t.Owns id child) : id < t.size := by
  obtain ⟨shape, look, -⟩ := owns
  exact lt_size_of_shape? look

/-- A node is another one or an ancestor of it. -/
def Leads (t : Tree) : ℕ → ℕ → Prop :=
  Relation.ReflTransGen t.Owns

theorem Leads.le (ordered : t.Ordered) (leads : t.Leads id place) : place ≤ id := by
  induction leads with
  | refl => exact le_rfl
  | tail _ owns ih => exact (owns.lt ordered).le.trans ih

/-- The last node of a part leads to all its nodes. -/
theorem Block.leads {first : ℕ} (block : t.Block first id) (le : first ≤ place)
    (le' : place ≤ id) : t.Leads id place := by
  rcases le'.eq_or_lt with rfl | lt
  · exact .refl
  · exact (block.ancestor le lt).to_reflTransGen

/-- The last node of a part leads nowhere else. -/
theorem Block.bounds {first : ℕ} (block : t.Block first id) (leads : t.Leads id place) :
    first ≤ place ∧ place ≤ id := by
  induction id using Nat.strong_induction_on generalizing first with
  | _ id ih =>
    have le := block.le
    cases block with
    | node look row =>
      rcases Relation.ReflTransGen.cases_head leads with rfl | ⟨child, owns, leads'⟩
      · exact ⟨le, le_rfl⟩
      · obtain ⟨children, found, mem⟩ := owns_iff.1 owns
        obtain rfl := Option.some.inj (look.symm.trans found)
        obtain ⟨first', le', part⟩ := row.exists_of_mem mem
        have lt := (row.bounds child mem).2
        have bounds := ih child lt part leads'
        omega

/-- **A part is what its last node leads to.** -/
theorem Block.leads_iff {first : ℕ} (block : t.Block first id) :
    t.Leads id place ↔ first ≤ place ∧ place ≤ id := by
  constructor
  · exact block.bounds
  · intro bounds
    exact block.leads bounds.1 bounds.2

/-- A node has one owner. -/
theorem Linked.unique (linked : t.Linked) {id' : ℕ} (owns : t.Owns id child)
    (owns' : t.Owns id' child) : id = id' :=
  Option.some.inj (((linked id child).2 owns).symm.trans ((linked id' child).2 owns'))

/-- The path to a node goes through its owner. -/
theorem reserve_of_owns (ordered : t.Ordered) (linked : t.Linked) (owns : t.Owns id child) :
    t.reserve child = (id, child) :: t.reserve id := by
  rw [reserve, (linked id child).2 owns]
  exact if_pos ⟨owns.lt ordered, owns.lt_size⟩

/-- The way up from a node, owner after owner, comes to one that nobody owns; each owner was noted
with the node that it was reached from. -/
inductive Climbs (t : Tree) : ℕ → ReservedPath → Prop
  | top {id : ℕ} : t.parent? id = none → Climbs t id []
  | owner {id owner : ℕ} {path : ReservedPath} :
      t.parent? id = some owner → Climbs t owner path → Climbs t id ((owner, id) :: path)

/-- The way up takes no turns. -/
theorem Climbs.unique {path path' : ReservedPath} (climbs : t.Climbs id path)
    (climbs' : t.Climbs id path') : path = path' := by
  induction climbs generalizing path' with
  | top free =>
    cases climbs' with
    | top _ => rfl
    | owner up _ => cases free.symm.trans up
  | owner up _ ih =>
    cases climbs' with
    | top free => cases free.symm.trans up
    | owner up' rest' =>
      obtain rfl := Option.some.inj (up.symm.trans up')
      rw [ih rest']

/-- The way up ends, and what was noted on it is the reserved path. -/
theorem climbs_reserve (ordered : t.Ordered) (linked : t.Linked) (id : ℕ) :
    t.Climbs id (t.reserve id) := by
  induction id using reserve.induct t with
  | case1 id top =>
    have path : t.reserve id = [] := by rw [reserve, top]
    rw [path]
    exact .top top
  | case2 id owner up _ ih =>
    rw [reserve_of_owns ordered linked ((linked owner id).1 up)]
    exact .owner up ih
  | case3 id owner up outside =>
    have owns : t.Owns owner id := (linked owner id).1 up
    exact absurd ⟨owns.lt ordered, owns.lt_size⟩ outside

/-- No place is noted twice, since owners come after what they own. -/
theorem pairwise_of_climbs (ordered : t.Ordered) (linked : t.Linked) {path : ReservedPath}
    (climbs : t.Climbs id path) : (id :: path.map Prod.fst).Pairwise (· < ·) := by
  induction climbs with
  | top _ => exact List.pairwise_singleton _ _
  | @owner id owner path up _ ih =>
    have lt : id < owner := ((linked owner id).1 up).lt ordered
    rw [List.map_cons, List.pairwise_cons]
    refine ⟨fun place mem => ?_, ih⟩
    rcases List.mem_cons.1 mem with rfl | mem
    · exact lt
    · exact lt.trans ((List.pairwise_cons.1 ih).1 place mem)

/-- **The reserved path is the chain of ancestors**, each with its child on the way to the node. -/
theorem branch?_reserve (ordered : t.Ordered) (linked : t.Linked) :
    (t.reserve place).branch? id = some child ↔ t.Owns id child ∧ t.Leads child place := by
  induction place using reserve.induct t with
  | case1 place top =>
    -- nobody owns the node, so nothing leads to it but itself
    have path : t.reserve place = [] := by rw [reserve, top]
    rw [path]
    refine iff_of_false (by rintro ⟨⟩) fun both => ?_
    rcases Relation.ReflTransGen.cases_tail both.2 with rfl | ⟨last, -, owns⟩
    · cases top.symm.trans ((linked id place).2 both.1)
    · cases top.symm.trans ((linked last place).2 owns)
  | case2 place owner some inside ih =>
    have owns : t.Owns owner place := (linked owner place).1 some
    rw [reserve_of_owns ordered linked owns, ReservedPath.branch?, List.lookup_cons]
    by_cases eq : id = owner
    · subst eq
      rw [beq_self_eq_true]
      constructor
      · rintro ⟨⟩
        exact ⟨owns, .refl⟩
      · rintro ⟨owns', leads⟩
        rcases Relation.ReflTransGen.cases_tail leads with rfl | ⟨last, before, owns''⟩
        · rfl
        -- the way to the node goes through its owner, which stands above the child
        · obtain rfl := linked.unique owns'' owns
          exact absurd (Leads.le ordered before) (not_le.2 (owns'.lt ordered))
    · rw [beq_eq_false_iff_ne.2 eq]
      refine ih.trans (and_congr_right fun owns' => ⟨fun leads => leads.tail owns, fun leads => ?_⟩)
      rcases Relation.ReflTransGen.cases_tail leads with rfl | ⟨last, before, owns''⟩
      · exact absurd (linked.unique owns' owns) eq
      · exact linked.unique owns'' owns ▸ before
  | case3 place owner some outside =>
    have owns : t.Owns owner place := (linked owner place).1 some
    exact absurd ⟨owns.lt ordered, owns.lt_size⟩ outside

/-- Only one child of a node leads to another node. -/
theorem Leads.unique (ordered : t.Ordered) (linked : t.Linked) {child' : ℕ}
    (owns : t.Owns id child) (leads : t.Leads child place) (owns' : t.Owns id child')
    (leads' : t.Leads child' place) : child = child' := by
  have first := (branch?_reserve ordered linked).2 ⟨owns, leads⟩
  have second := (branch?_reserve ordered linked).2 ⟨owns', leads'⟩
  exact Option.some.inj (first.symm.trans second)

end Tree

end PatternSampler
