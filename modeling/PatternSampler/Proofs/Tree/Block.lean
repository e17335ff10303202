/-
# Blocks

Nodes come from the leaves up and from left to right.  The nodes of a part therefore stand one after
the other: first those of its children, child by child, and last the node of the part itself.

* `Tree.shape?_adopt` and `Tree.shape?_setCapture` : what is found after a change.
* `Tree.Linked` : nodes know their owners, also after a change.
* `Tree.Block` : the nodes from one place to another make up a part.
* `Tree.Block.ancestor` : the last node of a part stands above all others.
-/
import PatternSampler.Proofs.Tree.Unfold

namespace PatternSampler

namespace Tree

variable {t t' : Tree}

/-! ## Changes -/

theorem shape?_setParent (t : Tree) (child owner id : ℕ) :
    (t.setParent child owner).shape? id = t.shape? id := by
  rw [shape?, shape?, setParent, Array.getElem?_modify]
  split
  · rw [Option.map_map]
    rfl
  · rfl

theorem size_setParent (t : Tree) (child owner : ℕ) : (t.setParent child owner).size = t.size := by
  rw [size, size, setParent, Array.size_modify]

/-- Owners do not count for what a node stands for. -/
theorem foldl_setParent (children : List ℕ) (owner : ℕ) (t : Tree) :
    (children.foldl (fun tree child => tree.setParent child owner) t).size = t.size ∧
      ∀ id, (children.foldl (fun tree child => tree.setParent child owner) t).shape? id =
        t.shape? id := by
  induction children generalizing t with
  | nil => exact ⟨rfl, fun _ => rfl⟩
  | cons child children ih =>
    obtain ⟨size, shape⟩ := ih (t.setParent child owner)
    refine ⟨?_, fun id => ?_⟩
    · rw [List.foldl_cons, size, size_setParent]
    · rw [List.foldl_cons, shape, shape?_setParent]

theorem size_adopt (t : Tree) (shape : Shape) : (t.adopt shape).size = t.size + 1 := by
  rw [adopt, (foldl_setParent _ _ _).1, size, push, Array.size_push]
  rfl

/-- A node that is added stands at the first free place. -/
theorem shape?_adopt (t : Tree) (shape : Shape) (id : ℕ) :
    (t.adopt shape).shape? id = if id = t.size then some shape else t.shape? id := by
  rw [adopt, (foldl_setParent _ _ _).2, shape?, push, Array.getElem?_push, size]
  split <;> rfl

theorem shape?_adopt_of_lt {shape : Shape} {id : ℕ} (lt : id < t.size) :
    (t.adopt shape).shape? id = t.shape? id := by
  rw [shape?_adopt, if_neg lt.ne]

/-- Owners are what setting them makes them, and nothing else does. -/
theorem parent?_setParent (t : Tree) (child owner id : ℕ) :
    (t.setParent child owner).parent? id =
      if id = child ∧ id < t.size then some owner else t.parent? id := by
  rw [parent?, parent?, setParent, Array.getElem?_modify]
  by_cases eq : child = id
  · subst eq
    rw [if_pos rfl]
    by_cases lt : child < t.size
    · rw [if_pos ⟨rfl, lt⟩, Array.getElem?_eq_getElem lt]
      rfl
    · rw [if_neg fun both => lt both.2, Array.getElem?_eq_none (not_lt.1 lt)]
      rfl
  · rw [if_neg eq, if_neg fun both => eq both.1.symm]

/-- The owner is noted at all of its children. -/
theorem parent?_foldl_setParent (children : List ℕ) (owner : ℕ) (t : Tree) (id : ℕ) :
    (children.foldl (fun tree child => tree.setParent child owner) t).parent? id =
      if id ∈ children ∧ id < t.size then some owner else t.parent? id := by
  induction children generalizing t with
  | nil => simp
  | cons child children ih =>
    rw [List.foldl_cons, ih, size_setParent, parent?_setParent]
    by_cases lt : id < t.size
    · by_cases eq : id = child
      · subst eq
        simp [lt]
      · simp [eq, lt]
    · simp [lt]

/-- A node that is added becomes the owner of its children and has no owner itself. -/
theorem parent?_adopt {shape : Shape} (earlier : ∀ child ∈ shape.children, child < t.size)
    (id : ℕ) :
    (t.adopt shape).parent? id =
      if id ∈ shape.children then some t.size else t.parent? id := by
  have size : (t.push shape).size = t.size + 1 := Array.size_push _
  have old : (t.push shape).parent? id = t.parent? id := by
    rw [parent?, parent?, push, Array.getElem?_push]
    split
    · next eq =>
      rw [eq, Array.getElem?_eq_none le_rfl]
      rfl
    · rfl
  rw [adopt, parent?_foldl_setParent, size, old]
  by_cases mem : id ∈ shape.children
  · rw [if_pos ⟨mem, (earlier id mem).trans (Nat.lt_succ_self _)⟩, if_pos mem]
  · rw [if_neg fun both => mem both.1, if_neg mem]

theorem parent?_setCapture (t : Tree) (group number id : ℕ) :
    (t.setCapture group number).parent? id = t.parent? id := by
  rw [parent?, parent?, setCapture, Array.getElem?_modify]
  split
  · rcases t.nodes[id]? with _ | node <;> rfl
  · rfl

/-- There is no owner where there is no node. -/
theorem lt_size_of_parent? {id owner : ℕ} (h : t.parent? id = some owner) : id < t.size := by
  obtain ⟨node, look, -⟩ := Option.bind_eq_some_iff.1 h
  exact (Array.getElem?_eq_some_iff.1 look).1

theorem shape?_setCapture (t : Tree) (group number id : ℕ) :
    (t.setCapture group number).shape? id =
      if group = id then (t.shape? id).map (Shape.withCapture number) else t.shape? id := by
  rw [shape?, shape?, setCapture, Array.getElem?_modify]
  split
  · rw [Option.map_map, Option.map_map]
    rfl
  · rfl

/-! ## Rows and blocks -/

/-- The children of a node. -/
def children? (t : Tree) (id : ℕ) : Option (List ℕ) :=
  (t.shape? id).map Shape.children

/-- The places from the first one up to the one before the last are made up of parts, each of which
ends at the next place of the list. -/
inductive Row (R : ℕ → ℕ → Prop) : ℕ → List ℕ → ℕ → Prop
  | nil (first : ℕ) : Row R first [] first
  | cons {first id stop : ℕ} {ids : List ℕ} :
      first ≤ id → R first id → Row R (id + 1) ids stop → Row R first (id :: ids) stop

/-- The nodes from the first place to the second one make up a part. -/
inductive Block (t : Tree) : ℕ → ℕ → Prop
  | node {first id : ℕ} {children : List ℕ} :
      t.children? id = some children → Row (Block t) first children id → Block t first id

theorem Row.le {R : ℕ → ℕ → Prop} {first stop : ℕ} {ids : List ℕ} (row : Row R first ids stop) :
    first ≤ stop := by
  induction row with
  | nil first => exact le_rfl
  | cons le _ _ ih => exact le.trans ((Nat.le_succ _).trans ih)

/-- What is in a row lies between its ends. -/
theorem Row.bounds {R : ℕ → ℕ → Prop} {first stop : ℕ} {ids : List ℕ} (row : Row R first ids stop) :
    ∀ id ∈ ids, first ≤ id ∧ id < stop := by
  induction row with
  | nil first => simp
  | cons le _ others ih =>
    intro id mem
    rcases List.mem_cons.1 mem with rfl | mem
    · exact ⟨le, others.le⟩
    · obtain ⟨le', lt⟩ := ih id mem
      exact ⟨le.trans ((Nat.le_succ _).trans le'), lt⟩

/-- Nothing is in a row twice. -/
theorem Row.nodup {R : ℕ → ℕ → Prop} {first stop : ℕ} {ids : List ℕ} (row : Row R first ids stop) :
    ids.Nodup := by
  induction row with
  | nil first => exact List.nodup_nil
  | cons le _ others ih =>
    exact List.nodup_cons.2 ⟨fun mem => absurd (others.bounds _ mem).1 (Nat.not_succ_le_self _), ih⟩

theorem Row.mono {R R' : ℕ → ℕ → Prop} {first stop : ℕ} {ids : List ℕ} (row : Row R first ids stop)
    (h : ∀ first id, id < stop → R first id → R' first id) : Row R' first ids stop := by
  induction row with
  | nil first => exact .nil first
  | cons le head others ih => exact .cons le (h _ _ others.le head) (ih h)

/-- Every place of a row lies in one of its parts. -/
theorem Row.exists_part {R : ℕ → ℕ → Prop} {first stop place : ℕ} {ids : List ℕ}
    (row : Row R first ids stop) (le : first ≤ place) (lt : place < stop) :
    ∃ first' child, child ∈ ids ∧ R first' child ∧ first' ≤ place ∧ place ≤ child := by
  induction row with
  | nil first => exact absurd lt (not_lt.2 le)
  | @cons first id _ _ _ head _ ih =>
    by_cases inside : place ≤ id
    · exact ⟨first, id, List.mem_cons_self, head, le, inside⟩
    · obtain ⟨first', child, mem, block, bounds⟩ := ih (not_le.1 inside) lt
      exact ⟨first', child, List.mem_cons_of_mem _ mem, block, bounds⟩

/-- Every place of the list ends a part of the row. -/
theorem Row.exists_of_mem {R : ℕ → ℕ → Prop} {first stop id : ℕ} {ids : List ℕ}
    (row : Row R first ids stop) (mem : id ∈ ids) : ∃ first', first ≤ first' ∧ R first' id := by
  induction row with
  | nil first => cases mem
  | @cons first _ _ _ le head _ ih =>
    rcases List.mem_cons.1 mem with rfl | mem
    · exact ⟨first, le_rfl, head⟩
    · obtain ⟨first', le', part⟩ := ih mem
      exact ⟨first', by omega, part⟩

/-- A block ends with its root. -/
theorem Block.le {first id : ℕ} (block : Block t first id) : first ≤ id := by
  cases block with
  | node _ row => exact row.le

/-- Every node of a part ends a part itself. -/
theorem Block.exists_block {first id place : ℕ} (block : Block t first id) (le : first ≤ place)
    (le' : place ≤ id) : ∃ first', Block t first' place := by
  induction id using Nat.strong_induction_on generalizing first with
  | _ id ih =>
    by_cases eq : place = id
    · subst eq
      exact ⟨first, block⟩
    · cases block with
      | node _ row =>
        obtain ⟨first', child, mem, inner, le₁, le₂⟩ := row.exists_part le (by omega)
        exact ih child (row.bounds child mem).2 inner le₁ le₂

/-- The children of every node of a part are all different. -/
theorem Block.nodup {first id place : ℕ} {children : List ℕ} (block : Block t first id)
    (le : first ≤ place) (le' : place ≤ id) (look : t.children? place = some children) :
    children.Nodup := by
  induction id using Nat.strong_induction_on generalizing first with
  | _ id ih =>
    cases block with
    | node found row =>
      rcases le'.eq_or_lt with rfl | lt
      · obtain rfl := Option.some.inj (found.symm.trans look)
        exact row.nodup
      · obtain ⟨first', child, mem, inner, le₁, le₂⟩ := row.exists_part le lt
        exact ih child (row.bounds child mem).2 inner le₁ le₂

/-- Whether there is a part depends on the children of its nodes only. -/
theorem Block.congr {first id : ℕ} (block : Block t first id)
    (same : ∀ i ≤ id, t'.children? i = t.children? i) : Block t' first id := by
  induction id using Nat.strong_induction_on generalizing first with
  | _ id ih =>
    cases block with
    | node look row =>
      refine .node ((same id le_rfl).trans look) (row.mono fun first' id' lt block => ?_)
      exact ih id' lt block fun i hi => same i (hi.trans lt.le)

theorem exists_shape_of_children? {id : ℕ} {children : List ℕ}
    (h : t.children? id = some children) :
    ∃ shape, t.shape? id = some shape ∧ shape.children = children :=
  Option.map_eq_some_iff.1 h

/-! ## Ancestors -/

/-- A node is a child of another one. -/
def Owns (t : Tree) (owner child : ℕ) : Prop :=
  ∃ shape, t.shape? owner = some shape ∧ child ∈ shape.children

/-- The owned nodes are the children. -/
theorem owns_iff {owner child : ℕ} :
    t.Owns owner child ↔ ∃ children, t.children? owner = some children ∧ child ∈ children := by
  simp only [Owns, children?, Option.map_eq_some_iff]
  constructor
  · rintro ⟨shape, look, mem⟩
    exact ⟨_, ⟨shape, look, rfl⟩, mem⟩
  · rintro ⟨_, ⟨shape, look, rfl⟩, mem⟩
    exact ⟨shape, look, mem⟩

/-- A node that is added owns its children. -/
theorem owns_adopt {shape : Shape} {owner child : ℕ} :
    (t.adopt shape).Owns owner child ↔
      owner = t.size ∧ child ∈ shape.children ∨ t.Owns owner child := by
  unfold Owns
  rw [shape?_adopt]
  by_cases eq : owner = t.size
  · subst eq
    have none : t.shape? t.size = none := by
      rw [shape?, size, Array.getElem?_eq_none le_rfl]
      rfl
    simp [none]
  · simp [eq]

/-- Nodes know their owners: a node is a child of exactly the node that it is said to be owned
by. -/
def Linked (t : Tree) : Prop :=
  ∀ owner child, t.parent? child = some owner ↔ t.Owns owner child

/-- Owners stay right if nodes that have none are put below a new one. -/
theorem Linked.adopt (linked : t.Linked) {shape : Shape}
    (earlier : ∀ child ∈ shape.children, child < t.size)
    (free : ∀ child ∈ shape.children, t.parent? child = none) : (t.adopt shape).Linked := by
  intro owner child
  rw [parent?_adopt earlier, owns_adopt, ← linked owner child]
  by_cases mem : child ∈ shape.children
  · simp [mem, free child mem, eq_comm]
  · simp [mem]

/-- A node is an ancestor of another one. -/
def Ancestor (t : Tree) : ℕ → ℕ → Prop :=
  Relation.TransGen t.Owns

/-- The last node of a part is an ancestor of all its other nodes. -/
theorem Block.ancestor {first id place : ℕ} (block : t.Block first id) (le : first ≤ place)
    (lt : place < id) : t.Ancestor id place := by
  induction id using Nat.strong_induction_on generalizing first with
  | _ id ih =>
    cases block with
    | node look row =>
      obtain ⟨shape, found, rfl⟩ := exists_shape_of_children? look
      obtain ⟨first', child, mem, inner, le', le''⟩ := row.exists_part le lt
      have owns : t.Owns id child := ⟨shape, found, mem⟩
      by_cases eq : place = child
      · subst eq
        exact .single owns
      · exact .head owns (ih child (row.bounds child mem).2 inner le' (lt_of_le_of_ne le'' eq))

end Tree

end PatternSampler
