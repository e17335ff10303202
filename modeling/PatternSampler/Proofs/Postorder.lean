/-
# Patterns in post-order

The nodes of a pattern make up a tree in which every node stands behind all that it owns, and what a
node owns stands right before it.  The root is the last node.

* `Compiled.PostOrder` is what is meant by this, with what is known of candidates and
  backreferences.
* `Compiled.postOrder` : every pattern that has been read is in post-order.
-/
import PatternSampler.Proofs.Invalidation.Path
import PatternSampler.Proofs.Reading.Groups
import PatternSampler.Proofs.Reading.Marking

namespace PatternSampler

open Reading

namespace Tree

variable {t : Tree} {id target place : ℕ}

theorem Ancestor.lt (ordered : t.Ordered) (above : t.Ancestor id place) : place < id := by
  induction above with
  | single owns => exact owns.lt ordered
  | tail _ owns ih => exact (owns.lt ordered).trans ih

/-- Some node owns each node of a part but the last one. -/
theorem Block.exists_owner {first : ℕ} (block : t.Block first id) (le : first ≤ place)
    (lt : place < id) : ∃ owner, t.Owns owner place := by
  obtain ⟨owner, -, owns⟩ := Relation.TransGen.tail'_iff.1 (block.ancestor le lt)
  exact ⟨owner, owns⟩

end Tree

namespace Compiled

/-- The nodes of a pattern are a tree in post-order. -/
structure PostOrder (pattern : String) (c : Compiled) : Prop where
  /-- The root is the last node. -/
  last : c.tree.size = c.root + 1
  /-- Nothing owns the root. -/
  top : c.tree.parent? c.root = none
  /-- A node is owned by the one that has it among its children. -/
  parent_iff : ∀ owner id, c.tree.parent? id = some owner ↔
    ∃ shape, c.tree.shape? owner = some shape ∧ id ∈ shape.children
  /-- Every node but the root has exactly one owner. -/
  owner : ∀ id < c.tree.size, id ≠ c.root → ∃! owner, c.tree.parent? id = some owner
  /-- No node has another one twice among its children. -/
  once : ∀ owner shape, c.tree.shape? owner = some shape → shape.children.Nodup
  /-- What stands below a node, and the node itself, is a block that ends with the node. -/
  block : ∀ id < c.tree.size, ∃ first, ∀ place,
    c.tree.Leads id place ↔ first ≤ place ∧ place ≤ id
  /-- Every node stands below the root. -/
  reachable : ∀ id < c.tree.size, c.tree.Leads c.root id
  /-- Only nodes of the tree are marked. -/
  candidates : ∀ id ∈ c.candidates, id < c.tree.size
  /-- A backreference refers to a capturing group. -/
  group : ∀ id target, c.tree.shape? id = some (.backref target) →
    ∃ body name n, c.tree.shape? target = some (.group body name (some n))
  /-- The group stands before the backreference. -/
  earlier : ∀ id target, c.tree.shape? id = some (.backref target) → target < id
  /-- The group does not stand above the backreference. -/
  apart : ∀ id target, c.tree.shape? id = some (.backref target) → ¬ c.tree.Ancestor target id
  /-- The backreferences of the tree are those that are read. -/
  read : ∀ id target, c.tree.shape? id = some (.backref target) ↔
    ∃ (B : Call) (a : Atom), B.Within (.whole pattern) ∧ B.ReadsBackref a id target
  /-- The group is none of those that are open while the backreference is read. -/
  closed : ∀ (B G : Call) (a : Atom) (id target : ℕ) (kind : GroupKind) (group : ℕ)
    (rest : List Char), B.ReadsBackref a id target → B.Within G → G.Within (.whole pattern) →
    G.ReadsGroup kind group rest → group ≠ target

variable {pattern : String} {c : Compiled}

/-- The backreferences of the tree are those that are read. -/
theorem shape?_eq_backref_iff (read : ofPattern? pattern = .ok c) (id target : ℕ) :
    c.tree.shape? id = some (.backref target) ↔
      ∃ (B : Call) (a : Atom), B.Within (.whole pattern) ∧ B.ReadsBackref a id target := by
  obtain ⟨first, more, d₁, d, finishes⟩ := Call.exists_finishes read
  rw [← finishes.finished]
  constructor
  · intro look
    have look := Draft.shape?_of_finish look (by simp)
    -- the root is no backreference unless it is one of the branches
    have all : Call.AddsRead (.whole pattern) {} d :=
      (Call.carried_addsRead _).trans finishes.ends.addsRead
        ((Call.carried_addsRead _).plain (addsPlain_plantAlternatives finishes.planted))
    rcases all id target look with look | reads
    · simp [Tree.shape?] at look
    · exact reads
  · rintro ⟨B, a, within, reads⟩
    obtain ⟨same, rest, ends⟩ := reads.plant
    obtain ⟨_, _, _, ends', continues⟩ := finishes.ends_of_within within
    obtain ⟨-, -, rfl⟩ := ends.unique ends'
    have here : (B.draft.plant (.backref target)).tree.shape? id = some (.backref target) := by
      rw [same]
      exact Draft.shape?_plant_size _ _
    have look : d.tree.shape? id = some (.backref target) :=
      (continues.shapes id (Tree.lt_size_of_shape? here)).trans here
    exact finishes.sound.shape?_finish_of look (by simp)

/-- **A pattern that has been read is in post-order.** -/
theorem postOrder (read : ofPattern? pattern = .ok c) : c.PostOrder pattern := by
  have well := ofPattern?_wellFormed read
  have whole := ofPattern?_block read
  have size := ofPattern?_size read
  have linked := ofPattern?_linked read
  have below {id : ℕ} (lt : id < c.tree.size) : id ≤ c.root := by omega
  refine
    { last := size
      top := ?_
      parent_iff := linked
      owner := ?_
      once := ?_
      block := ?_
      reachable := fun id lt => whole.leads (Nat.zero_le id) (below lt)
      candidates := fun id mem => lt_size_of_mem_candidates read mem
      group := well.targets
      earlier := fun id target look => well.ordered id _ look target List.mem_cons_self
      apart := ?_
      read := shape?_eq_backref_iff read
      closed := ?_ }
  · by_contra some
    obtain ⟨owner, eq⟩ := Option.ne_none_iff_exists'.1 some
    have owns := (linked owner c.root).1 eq
    have lt := owns.lt well.ordered
    have lt' := owns.lt_size
    omega
  · intro id lt ne
    obtain ⟨owner, owns⟩ := whole.exists_owner (Nat.zero_le id) (lt_of_le_of_ne (below lt) ne)
    have some := (linked owner id).2 owns
    refine ⟨owner, some, fun other some' => ?_⟩
    exact Option.some.inj (some'.symm.trans some)
  · intro owner shape look
    apply whole.nodup (Nat.zero_le owner) (below (Tree.lt_size_of_shape? look))
    rw [Tree.children?, look]
    rfl
  · intro id lt
    obtain ⟨first, block⟩ := whole.exists_block (Nat.zero_le id) (below lt)
    exact ⟨first, fun place => block.leads_iff⟩
  · intro id target look above
    have lt := above.lt well.ordered
    have lt' := well.ordered id _ look target List.mem_cons_self
    omega
  · intro B G a id target kind group rest reads within within' opens
    have look := (shape?_eq_backref_iff read id target).2 ⟨B, a, within.trans within', reads⟩
    have lt := well.ordered id _ look target List.mem_cons_self
    have lt' := reads.lt within opens
    omega

/-- A group with two branches, one of which is a group of its own, and a backreference behind it. -/
theorem postOrder_nested : ∃ c, ofPattern? "(a|(?:b[cd]*)\\i)\\1" = .ok c ∧
    c.PostOrder "(a|(?:b[cd]*)\\i)\\1" ∧ c.root = 9 ∧ c.candidates = [1, 2, 3, 4, 5] ∧
    c.tree.shape? 8 = some (.backref 7) ∧ ¬ c.tree.Ancestor 7 8 := by
  have run : (ofPattern? "(a|(?:b[cd]*)\\i)\\1").toOption.map (fun c =>
      (c.root, c.candidates, c.tree.shape? 8)) =
        some (9, [1, 2, 3, 4, 5], some (.backref 7)) := by
    decide +kernel
  obtain ⟨c, read, facts⟩ := Call.exists_of_ofPattern? run
  simp only [Prod.mk.injEq] at facts
  obtain ⟨root, candidates, look⟩ := facts
  have order := postOrder read
  exact ⟨c, read, order, root, candidates, look, order.apart 8 7 look⟩

end Compiled

end PatternSampler
