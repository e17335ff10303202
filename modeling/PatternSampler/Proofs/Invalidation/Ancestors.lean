/-
# Reserved paths in patterns

In a pattern that has been read every node but the root has an owner, owners come after what they
own, and all nodes stand below the root.  The way up from a node therefore ends at the root, and the
reserved path names the ancestors of the node and nothing else.  A backreference owns no node, so it
leads no path away from where its group stands.

* `Tree.reserves_iff` : the nodes on a reserved path.
* `Compiled.reserves_ancestors` : the path to a node of a pattern.
-/
import PatternSampler.Proofs.Postorder

namespace PatternSampler

namespace Tree

variable {t : Tree} {id above : ℕ}

/-- A node is on the path to each node below it. -/
theorem reserves_iff (ordered : t.Ordered) (linked : t.Linked) :
    (t.reserve id).reserves above = true ↔ t.Ancestor above id := by
  rw [ReservedPath.reserves, Option.isSome_iff_exists]
  calc (∃ child, (t.reserve id).branch? above = some child)
      ↔ ∃ child, t.Owns above child ∧ t.Leads child id :=
        exists_congr fun _ => branch?_reserve ordered linked
    _ ↔ t.Ancestor above id := Relation.TransGen.head'_iff.symm

/-- A node that leads to another one is an ancestor of it. -/
theorem Leads.ancestor_iff (ordered : t.Ordered) (leads : t.Leads above id) :
    t.Ancestor above id ↔ id ≠ above := by
  constructor
  · intro ancestor
    exact (ancestor.lt ordered).ne
  · intro ne
    exact (Relation.reflTransGen_iff_eq_or_transGen.1 leads).resolve_left ne

end Tree

namespace Compiled

variable {pattern : String} {c : Compiled} {id : ℕ}

/-- **The reserved path is exactly the chain of ancestors.**  From each node the way up ends and
notes the reserved path, no place of which is noted twice.  The path continues below a node exactly
if the node stands above the one that the path leads to, and then through the child that leads
there.  So the root is on the path unless it is that node itself, which is never on it. -/
theorem reserves_ancestors (read : ofPattern? pattern = .ok c) (lt : id < c.tree.size) :
    (∀ path, c.tree.Climbs id path ↔ path = c.tree.reserve id) ∧
      ((c.tree.reserve id).map Prod.fst).Pairwise (· < ·) ∧
      (∀ above child, (c.tree.reserve id).branch? above = some child ↔
        c.tree.Leads c.root above ∧ c.tree.Owns above child ∧ c.tree.Leads child id) ∧
      (∀ above, (c.tree.reserve id).reserves above = true ↔ c.tree.Ancestor above id) ∧
      ((c.tree.reserve id).reserves c.root = true ↔ id ≠ c.root) ∧
      (c.tree.reserve id).reserves id = false := by
  have ordered : c.tree.Ordered := (ofPattern?_wellFormed read).ordered
  have linked : c.tree.Linked := ofPattern?_linked read
  have reachable := (postOrder read).reachable
  have climbs := c.tree.climbs_reserve ordered linked id
  refine ⟨fun path => ⟨fun climbs' => climbs'.unique climbs, fun eq => eq ▸ climbs⟩,
    (List.pairwise_cons.1 (Tree.pairwise_of_climbs ordered linked climbs)).2,
    fun above child => ?_, fun above => Tree.reserves_iff ordered linked, ?_, ?_⟩
  · rw [Tree.branch?_reserve ordered linked]
    refine ⟨fun both => ⟨?_, both⟩, And.right⟩
    exact reachable above both.1.lt_size
  · rw [Tree.reserves_iff ordered linked, (reachable id lt).ancestor_iff ordered]
  · rw [Bool.eq_false_iff, Ne, Tree.reserves_iff ordered linked]
    exact fun self => (self.lt ordered).false

/-- The path to the set of a macro in a group that is referred to: it goes up through the group and
past the backreference. -/
theorem reserves_ancestors_macro : ∃ c, ofPattern? "(?:x|([:digit:]+z))\\1" = .ok c ∧
    1 < c.tree.size ∧ c.root = 9 ∧ c.tree.shape? 8 = some (.backref 5) ∧
    c.tree.reserve 1 = [(2, 1), (4, 2), (5, 4), (6, 5), (7, 6), (9, 7)] ∧
    c.tree.Ancestor 5 1 ∧ ¬ c.tree.Ancestor 8 1 ∧ (c.tree.reserve 1).reserves 1 = false := by
  have run : (ofPattern? "(?:x|([:digit:]+z))\\1").toOption.map (fun c =>
      (c.tree.size, c.root, c.tree.shape? 8, [1, 2, 4, 5, 6, 7, 9].map c.tree.parent?)) =
        some (10, 9, some (.backref 5), [some 2, some 4, some 5, some 6, some 7, some 9, none]) := by
    decide +kernel
  obtain ⟨c, read, facts⟩ := Reading.Call.exists_of_ofPattern? run
  simp only [Prod.mk.injEq, List.map_cons, List.map_nil, List.cons.injEq, and_true] at facts
  obtain ⟨size, root, look, up₁, up₂, up₄, up₅, up₆, up₇, top⟩ := facts
  have lt : 1 < c.tree.size := by omega
  obtain ⟨climbs, -, -, on, -, self⟩ := reserves_ancestors read lt
  have path : [(2, 1), (4, 2), (5, 4), (6, 5), (7, 6), (9, 7)] = c.tree.reserve 1 :=
    (climbs _).1 (.owner up₁ (.owner up₂ (.owner up₄ (.owner up₅ (.owner up₆ (.owner up₇
      (.top top)))))))
  refine ⟨c, read, lt, root, look, path.symm, (on 5).1 ?_, fun above => ?_, self⟩
  · rw [← path]
    rfl
  · have found := (on 8).2 above
    rw [← path] at found
    cases found

end Compiled

end PatternSampler
