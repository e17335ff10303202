/-
# Sound drafts

What holds of a draft at every moment of reading, and what the reader of a part does to it: the
nodes of the part are put behind those that are there, in the order of their creation, and the
groups among them get numbers that were not in use.

* `Draft.Sound` is the invariant, `Draft.Grows` what happens to a draft.
* `Adds` and `AddsRow` say that a part or several parts were added; `AddsRow.plant` puts a node on
  top of them.
-/
import PatternSampler.Proofs.Outcome
import PatternSampler.Proofs.Reading.Regular
import PatternSampler.Proofs.Tree.Block
import PatternSampler.Reading.Draft

namespace PatternSampler

namespace Draft

/-! ## The invariant -/

/-- References lead to earlier nodes, nodes know their owners, shapes are regular, every alternation
has a branch, the account of closed groups is right, backreferences refer to closed groups, and no
two groups have the same number. -/
structure Sound (d : Draft) : Prop where
  ordered : d.tree.Ordered
  linked : d.tree.Linked
  regular : ∀ id shape, d.tree.shape? id = some shape → shape.Regular
  branches : ∀ id branches, d.tree.shape? id = some (.alternation branches) → branches ≠ []
  numbered : ∀ n id, (n, id) ∈ d.numbered →
    ∃ body, d.tree.shape? id = some (.group body none (some n))
  named : ∀ name id, (name, id) ∈ d.named →
    ∃ body, d.tree.shape? id = some (.group body (some name) none)
  targets : ∀ id target, d.tree.shape? id = some (.backref target) →
    (∃ n, (n, target) ∈ d.numbered) ∨ ∃ name, (name, target) ∈ d.named
  opened : ∀ id n, d.tree.capture? id = some n → n ≤ d.opened
  unique : ∀ id id' n, d.tree.capture? id = some n → d.tree.capture? id' = some n → id = id'

/-- Two drafts differ at most in their marks. -/
structure Alike (d d' : Draft) : Prop where
  tree : d'.tree = d.tree
  opened : d'.opened = d.opened
  numbered : d'.numbered = d.numbered
  named : d'.named = d.named

theorem Alike.trans {d d' d'' : Draft} (first : Alike d d') (second : Alike d' d'') :
    Alike d d'' where
  tree := second.tree.trans first.tree
  opened := second.opened.trans first.opened
  numbered := second.numbered.trans first.numbered
  named := second.named.trans first.named

/-- Marks do not count for what is sound. -/
theorem Sound.alike {d d' : Draft} (h : d.Sound) (alike : Alike d d') : d'.Sound := by
  obtain ⟨tree, _, _, _, opened, numbered, named⟩ := d
  obtain ⟨tree', _, _, _, opened', numbered', named'⟩ := d'
  obtain ⟨rfl, rfl, rfl, rfl⟩ := alike
  exact ⟨h.ordered, h.linked, h.regular, h.branches, h.numbered, h.named, h.targets, h.opened,
    h.unique⟩

/-- A draft without nodes is sound. -/
theorem sound_empty : ({} : Draft).Sound := by
  have none (id : ℕ) : ({} : Tree).shape? id = none := by simp [Tree.shape?]
  have bare (id : ℕ) (shape : Shape) : ({} : Tree).shape? id ≠ some shape := by simp [none]
  have free (id n : ℕ) : ({} : Tree).capture? id ≠ some n := by simp [Tree.capture?, none]
  exact
    { ordered := fun id shape found => absurd found (bare id shape)
      linked := by simp [Tree.Linked, Tree.Owns, none, Tree.parent?]
      regular := fun id shape found => absurd found (bare id shape)
      branches := fun id _ found => absurd found (bare id _)
      numbered := by simp
      named := by simp
      targets := fun id _ found => absurd found (bare id _)
      opened := fun id n found => absurd found (free id n)
      unique := fun id _ n found _ => absurd found (free id n) }

/-! ## Growth -/

/-- Nodes stay what they are, and the groups among new nodes have numbers above those that had been
given out. -/
structure Grows (d d' : Draft) : Prop where
  size : d.tree.size ≤ d'.tree.size
  shapes : ∀ id < d.tree.size, d'.tree.shape? id = d.tree.shape? id
  parents : ∀ id < d.tree.size, d'.tree.parent? id = d.tree.parent? id
  opened : d.opened ≤ d'.opened
  fresh : ∀ id n, d.tree.size ≤ id → d'.tree.capture? id = some n → d.opened < n

theorem Grows.refl (d : Draft) : Grows d d where
  size := le_rfl
  shapes := fun _ _ => rfl
  parents := fun _ _ => rfl
  opened := le_rfl
  fresh := by
    intro id n le h
    obtain ⟨shape, look, -⟩ := Option.bind_eq_some_iff.1 h
    exact absurd (Tree.lt_size_of_shape? look) (not_lt.2 le)

/-- Nodes that were there capture as before. -/
theorem Grows.capture? {d d' : Draft} (h : Grows d d') {id : ℕ} (lt : id < d.tree.size) :
    d'.tree.capture? id = d.tree.capture? id := by
  rw [Tree.capture?, Tree.capture?, h.shapes id lt]

theorem Grows.trans {d d' d'' : Draft} (first : Grows d d') (second : Grows d' d'') :
    Grows d d'' where
  size := first.size.trans second.size
  shapes := fun id lt =>
    (second.shapes id (lt.trans_le first.size)).trans (first.shapes id lt)
  parents := fun id lt =>
    (second.parents id (lt.trans_le first.size)).trans (first.parents id lt)
  opened := first.opened.trans second.opened
  fresh := by
    intro id n le h
    by_cases lt : id < d'.tree.size
    · exact first.fresh id n le ((second.capture? lt).symm.trans h)
    · exact first.opened.trans_lt (second.fresh id n (not_lt.1 lt) h)

theorem Grows.of_alike {d d' : Draft} (alike : Alike d d') : Grows d d' := by
  have grows := Grows.refl d
  obtain ⟨tree, _, _, _, opened, numbered, named⟩ := d
  obtain ⟨tree', _, _, _, opened', numbered', named'⟩ := d'
  obtain ⟨rfl, rfl, rfl, rfl⟩ := alike
  exact ⟨grows.size, grows.shapes, grows.parents, grows.opened, grows.fresh⟩

/-- A block of nodes that were there stays one. -/
theorem Grows.block {d d' : Draft} (h : Grows d d') {first id : ℕ}
    (block : d.tree.Block first id) (lt : id < d.tree.size) : d'.tree.Block first id :=
  block.congr fun i hi => by
    rw [Tree.children?, Tree.children?, h.shapes i (hi.trans_lt lt)]

/-! ## Adding a node -/

/-- What must hold of a node that is added, apart from its children. -/
structure Admits (d : Draft) (shape : Shape) : Prop where
  regular : shape.Regular
  branches : ∀ branches, shape = .alternation branches → branches ≠ []
  targets : ∀ target, shape = .backref target →
    (∃ n, (n, target) ∈ d.numbered) ∨ ∃ name, (name, target) ∈ d.named
  opened : ∀ n, shape.capture? = some n → n ≤ d.opened
  unique : ∀ id n, shape.capture? = some n → d.tree.capture? id ≠ some n

/-- Closed groups have been added. -/
theorem Sound.lt_size {d : Draft} (h : d.Sound) {target : ℕ}
    (closed : (∃ n, (n, target) ∈ d.numbered) ∨ ∃ name, (name, target) ∈ d.named) :
    target < d.tree.size := by
  rcases closed with ⟨n, mem⟩ | ⟨name, mem⟩
  · obtain ⟨body, look⟩ := h.numbered n target mem
    exact Tree.lt_size_of_shape? look
  · obtain ⟨body, look⟩ := h.named name target mem
    exact Tree.lt_size_of_shape? look

/-- A node is added at the end. -/
theorem shape?_plant (d : Draft) (shape : Shape) (id : ℕ) :
    (d.plant shape).tree.shape? id =
      if id = d.tree.size then some shape else d.tree.shape? id :=
  Tree.shape?_adopt _ _ _

theorem shape?_plant_of {d : Draft} {shape other : Shape} {id : ℕ}
    (found : d.tree.shape? id = some other) : (d.plant shape).tree.shape? id = some other := by
  rw [shape?_plant, if_neg (Tree.lt_size_of_shape? found).ne, found]

/-- Only the new node may capture under a new number. -/
theorem capture?_plant (d : Draft) (shape : Shape) (id : ℕ) :
    (d.plant shape).tree.capture? id =
      if id = d.tree.size then shape.capture? else d.tree.capture? id := by
  rw [Tree.capture?, Tree.capture?, shape?_plant]
  split <;> rfl

/-- A sound draft stays sound when a node is put on top of earlier ones that nobody owns. -/
theorem Sound.plant {d : Draft} (h : d.Sound) {shape : Shape} (admits : d.Admits shape)
    (children : ∀ child ∈ shape.children, child < d.tree.size)
    (free : ∀ child ∈ shape.children, d.tree.parent? child = none) : (d.plant shape).Sound where
  ordered := by
    intro id other found r hr
    rw [shape?_plant] at found
    split at found
    · next eq =>
      cases found
      rw [eq]
      -- only a backreference refers to a node that is not a child
      cases shape with
      | backref target =>
        rw [List.mem_singleton.1 hr]
        exact h.lt_size (admits.targets target rfl)
      | text | set | concat | alternation | repetition | group => exact children r hr
    · exact h.ordered id other found r hr
  linked := h.linked.adopt children free
  regular := by
    intro id other found
    rw [shape?_plant] at found
    split at found
    · cases found
      exact admits.regular
    · exact h.regular id other found
  branches := by
    intro id branches found
    rw [shape?_plant] at found
    split at found
    · exact admits.branches branches (Option.some.inj found)
    · exact h.branches id branches found
  numbered := by
    intro n id mem
    obtain ⟨body, found⟩ := h.numbered n id mem
    exact ⟨body, shape?_plant_of found⟩
  named := by
    intro name id mem
    obtain ⟨body, found⟩ := h.named name id mem
    exact ⟨body, shape?_plant_of found⟩
  targets := by
    intro id target found
    rw [shape?_plant] at found
    split at found
    · exact admits.targets target (Option.some.inj found)
    · exact h.targets id target found
  opened := by
    intro id n found
    rw [capture?_plant] at found
    split at found
    · exact admits.opened n found
    · exact h.opened id n found
  unique := by
    intro id id' n found found'
    rw [capture?_plant] at found found'
    split at found <;> split at found'
    · next eq eq' => rw [eq, eq']
    · exact absurd found' (admits.unique id' n found)
    · exact absurd found (admits.unique id n found')
    · exact h.unique id id' n found found'

/-- A node is added on top of new ones, under a new number if any. -/
theorem Grows.plant {base d : Draft} (h : Grows base d) {shape : Shape}
    (children : ∀ child ∈ shape.children, base.tree.size ≤ child ∧ child < d.tree.size)
    (fresh : ∀ n, shape.capture? = some n → base.opened < n) : Grows base (d.plant shape) where
  size := h.size.trans ((Nat.le_succ _).trans (Tree.size_adopt d.tree shape).ge)
  shapes := by
    intro id lt
    rw [← h.shapes id lt]
    exact Tree.shape?_adopt_of_lt (lt.trans_le h.size)
  parents := by
    intro id lt
    have new : id ∉ shape.children := fun mem => absurd (children id mem).1 (not_le.2 lt)
    rw [← h.parents id lt]
    exact (Tree.parent?_adopt (fun child mem => (children child mem).2) id).trans (if_neg new)
  opened := h.opened
  fresh := by
    intro id n le found
    rw [capture?_plant] at found
    split at found
    · exact fresh n found
    · exact h.fresh id n le found

theorem shape?_plant_size (d : Draft) (shape : Shape) :
    (d.plant shape).tree.shape? d.tree.size = some shape := by
  rw [shape?_plant, if_pos rfl]

/-! ## Taking note of groups -/

/-- A numbered group that is in the tree is put down as closed. -/
theorem Sound.push_numbered {d : Draft} (h : d.Sound) {n id body : ℕ}
    (look : d.tree.shape? id = some (.group body none (some n))) :
    ({ d with numbered := d.numbered.push (n, id) } : Draft).Sound where
  ordered := h.ordered
  linked := h.linked
  regular := h.regular
  branches := h.branches
  numbered := by
    intro n' id' mem
    rcases Array.mem_push.1 mem with mem | eq
    · exact h.numbered n' id' mem
    · cases eq
      exact ⟨body, look⟩
  named := h.named
  targets := by
    intro id' target found
    refine (h.targets id' target found).imp_left ?_
    rintro ⟨n', mem⟩
    exact ⟨n', Array.mem_push.2 (Or.inl mem)⟩
  opened := h.opened
  unique := h.unique

/-- A named group that is in the tree is put down as closed. -/
theorem Sound.push_named {d : Draft} (h : d.Sound) {name : String} {id body : ℕ}
    (look : d.tree.shape? id = some (.group body (some name) none)) :
    ({ d with named := d.named.push (name, id) } : Draft).Sound where
  ordered := h.ordered
  linked := h.linked
  regular := h.regular
  branches := h.branches
  numbered := h.numbered
  named := by
    intro name' id' mem
    rcases Array.mem_push.1 mem with mem | eq
    · exact h.named name' id' mem
    · cases eq
      exact ⟨body, look⟩
  targets := by
    intro id' target found
    refine (h.targets id' target found).imp_right ?_
    rintro ⟨name', mem⟩
    exact ⟨name', Array.mem_push.2 (Or.inl mem)⟩
  opened := h.opened
  unique := h.unique

end Draft

/-! ## Adding parts -/

/-- One part was added; its node is the last one and has no owner yet. -/
structure Adds (d : Draft) (id : ℕ) (d' : Draft) : Prop where
  sound : d'.Sound
  grows : d.Grows d'
  free : d'.tree.parent? id = none
  block : d'.tree.Block d.tree.size id
  last : d'.tree.size = id + 1

/-- Several parts were added, one behind the other; their nodes have no owners yet. -/
structure AddsRow (d : Draft) (ids : List ℕ) (d' : Draft) : Prop where
  sound : d'.Sound
  grows : d.Grows d'
  free : ∀ id ∈ ids, d'.tree.parent? id = none
  row : Tree.Row d'.tree.Block d.tree.size ids d'.tree.size

variable {d d' d'' : Draft} {id : ℕ} {ids : List ℕ}

/-- One part is a row. -/
theorem Adds.row (h : Adds d id d') : AddsRow d [id] d' where
  sound := h.sound
  grows := h.grows
  free := by
    intro id' mem
    rw [List.mem_singleton.1 mem]
    exact h.free
  row := by
    rw [h.last]
    exact .cons h.block.le h.block (.nil (id + 1))

/-- A row of one part is one part. -/
theorem AddsRow.single (h : AddsRow d [id] d') : Adds d id d' := by
  obtain ⟨sound, grows, free, row⟩ := h
  cases row with
  | cons le block others =>
    generalize stop : d'.tree.size = size at others
    cases others
    exact ⟨sound, grows, free id List.mem_cons_self, block, stop⟩

/-- What is put down about closed groups does not count for what was added. -/
theorem Adds.noted (h : Adds d id d') (sound : d''.Sound) (tree : d''.tree = d'.tree)
    (opened : d''.opened = d'.opened) : Adds d id d'' where
  sound := sound
  grows := by
    obtain ⟨size, shapes, parents, most, fresh⟩ := h.grows
    rw [← tree] at size shapes parents fresh
    rw [← opened] at most
    exact ⟨size, shapes, parents, most, fresh⟩
  free := tree ▸ h.free
  block := tree ▸ h.block
  last := tree ▸ h.last

/-- Nothing was added. -/
theorem AddsRow.nil (h : d.Sound) : AddsRow d [] d where
  sound := h
  grows := .refl d
  free := by simp
  row := .nil _

/-- A part in front of a row makes a longer one. -/
theorem AddsRow.cons (first : Adds d id d') (others : AddsRow d' ids d'') :
    AddsRow d (id :: ids) d'' where
  sound := others.sound
  grows := first.grows.trans others.grows
  free := by
    intro id' mem
    rcases List.mem_cons.1 mem with rfl | mem
    · rw [others.grows.parents id' (by rw [first.last]; exact Nat.lt_succ_self id')]
      exact first.free
    · exact others.free id' mem
  row := by
    have row := others.row
    rw [first.last] at row
    refine .cons first.block.le (others.grows.block first.block ?_) row
    rw [first.last]
    exact Nat.lt_succ_self id

/-- Marks do not count. -/
theorem AddsRow.before (alike : d.Alike d') (h : AddsRow d' ids d'') : AddsRow d ids d'' where
  sound := h.sound
  grows := (Draft.Grows.of_alike alike).trans h.grows
  free := h.free
  row := alike.tree ▸ h.row

/-- Marks do not count for a row. -/
theorem AddsRow.after (h : AddsRow d ids d') (alike : d'.Alike d'') : AddsRow d ids d'' where
  sound := h.sound.alike alike
  grows := h.grows.trans (.of_alike alike)
  free := alike.tree ▸ h.free
  row := alike.tree ▸ h.row

/-- A node is put on top of parts that were added; they become its children. -/
theorem AddsRow.plant (h : AddsRow d ids d') {shape : Shape} (children : shape.children = ids)
    (admits : d'.Admits shape) (fresh : ∀ n, shape.capture? = some n → d.opened < n) :
    Adds d d'.tree.size (d'.plant shape) := by
  have bounds : ∀ child ∈ shape.children, d.tree.size ≤ child ∧ child < d'.tree.size :=
    children ▸ h.row.bounds
  have earlier := fun child mem => (bounds child mem).2
  refine ⟨h.sound.plant admits earlier (children ▸ h.free), h.grows.plant bounds fresh, ?_, ?_,
    Tree.size_adopt _ _⟩
  · have own : d'.tree.size ∉ shape.children := fun mem => lt_irrefl _ (earlier _ mem)
    refine (Tree.parent?_adopt earlier _).trans ((if_neg own).trans ?_)
    by_contra some
    obtain ⟨owner, eq⟩ := Option.ne_none_iff_exists'.1 some
    exact lt_irrefl _ (Tree.lt_size_of_parent? eq)
  · refine .node ?_ (h.row.mono fun first id lt block => ?_)
    · show ((d'.tree.adopt shape).shape? d'.tree.size).map Shape.children = some ids
      rw [Tree.shape?_adopt, if_pos rfl, ← children]
      rfl
    · refine block.congr fun i hi => ?_
      show ((d'.tree.adopt shape).shape? i).map Shape.children = _
      rw [Tree.shape?_adopt_of_lt (hi.trans_lt lt)]
      rfl

end PatternSampler
