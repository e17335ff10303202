/-
# Backreferences to groups that are chosen

A group that stands below a choice may have no text where it is referred to, and then the generator
makes one up while the matcher gives up.  Where the backreference stands below the same choice this
cannot happen: generated strings match if every group is in scope where it is referred to.  That is
found out along the paths from the group and from the backreference to the root.

* `Tree.keepsScopes` : the test of a tree, and `Tree.recalls_of_keepsScopes` that it is right.
* `Pattern.fullMatch_of_generate_inScope` : generated strings match.
* `Pattern.exists_generate_not_fullMatch` : they need not match if a group is out of scope.
-/
import PatternSampler.Proofs.Generation.Agreement

namespace PatternSampler

namespace Tree

variable {t : Tree}

/-! ## Testing for scope -/

/-- Whether each node that leaves a group open, on the path to that group, is passed on the path to
the backreference as well, and through the same child. -/
def keepsScopes (t : Tree) : Bool :=
  (List.range t.size).all fun id =>
    match t.shape? id with
    | some (.backref target) => (t.reserve target).all fun step =>
        !(t.expr step.1).leavesOpen || (t.reserve id).branch? step.1 == some step.2
    | _ => true

/-- In a tree that keeps scopes every group is in scope where it is referred to. -/
theorem recalls_of_keepsScopes (ordered : t.Ordered) (linked : t.Linked)
    (keeps : t.keepsScopes = true) {settings : Settings} (mode : settings.backrefs = .replay) :
    t.Recalls settings := by
  intro id target found
  refine ⟨mode, fun above child owns leads opened => ?_⟩
  have here := List.all_eq_true.1 keeps id (List.mem_range.2 (lt_size_of_shape? found))
  rw [found] at here
  -- the node with its child is a step on the path to the group
  have onPath : (above, child) ∈ t.reserve target := by
    have taken := (branch?_reserve ordered linked).2 ⟨owns, leads⟩
    obtain ⟨before, after, split, -⟩ := List.lookup_eq_some_iff.1 taken
    rw [split]
    exact List.mem_append_right before List.mem_cons_self
  have step := List.all_eq_true.1 here _ onPath
  rw [opened, Bool.not_true, Bool.false_or] at step
  exact ((branch?_reserve ordered linked).1 (eq_of_beq step)).2

end Tree

namespace Pattern

variable {source : String} {p : Pattern} {σ : Type} [RandomSource σ]

/-- **Generated strings match if all groups are in scope.**  If every backreference replays a group
that is in scope, then a string that a pattern without a marker generates matches the pattern, also
where the group stands below a choice. -/
theorem fullMatch_of_generate_inScope (h : InUse source p) (unmarked : p.isInvalidating = false)
    {settings : Settings} (recalls : p.compiled.tree.Recalls settings) {g : σ} {text : String}
    (run : (p.generate settings g).1 = .ok text) : (p.fullMatch text).1 = true := by
  have block := Compiled.ofPattern?_block h.invariant.2.1
  have ready := Tree.ready_of_inScope h.wellFormed recalls block (.start _)
  obtain ⟨g', generated⟩ := generate_eq_ok unmarked run
  have matched := ready.matchesAll generated
  rw [h.fullMatch]
  exact (h.wellFormed.fullMatch_program_iff h.slotsFit text.toList).2 matched

/-- A group that is referred to in its own branch, in a loop that may be left out, and one that is
referred to behind a loop without an upper bound. -/
theorem fullMatch_of_generate_inScope_branch : ∃ p, InUse "(?:(a|b)\\1|c)*([0-9])+\\2" p ∧
    (p.generate {} (WordStream.ofWords #[800000000, 0, 0, 4294967295, 0, 0])).1 = .ok "aac00" ∧
      (p.fullMatch "aac00").1 = true := by
  have run : (ofString? "(?:(a|b)\\1|c)*([0-9])+\\2").toOption.map (fun p => (p.isInvalidating,
      p.compiled.tree.keepsScopes,
      (p.generate {} (WordStream.ofWords #[800000000, 0, 0, 4294967295, 0, 0])).1)) =
        some (false, true, .ok "aac00") := by
    decide +kernel
  obtain ⟨p, h, all⟩ := exists_inUse run
  have unmarked : p.isInvalidating = false := congrArg (fun r => r.1) all
  have keeps : p.compiled.tree.keepsScopes = true := congrArg (fun r => r.2.1) all
  have generated : (p.generate {} (WordStream.ofWords #[800000000, 0, 0, 4294967295, 0, 0])).1 =
      .ok "aac00" := congrArg (fun r => r.2.2) all
  have linked := Compiled.ofPattern?_linked h.invariant.2.1
  have recalls : p.compiled.tree.Recalls {} :=
    Tree.recalls_of_keepsScopes h.wellFormed.ordered linked keeps rfl
  exact ⟨p, h, generated, fullMatch_of_generate_inScope h unmarked recalls generated⟩

/-- A group in a loop without an upper bound whose last occurrence has produced nothing: the
generator replays the empty text, while the matcher does not go on with an empty occurrence and
still has the text of the one before. -/
theorem exists_generate_not_fullMatch : ∃ p, InUse "(a|)+\\1" p ∧ p.isInvalidating = false ∧
    (∃ id target, p.compiled.tree.shape? id = some (.backref target) ∧
      ¬ p.compiled.tree.Certain target) ∧
    (p.generate {} (WordStream.ofWords #[500000000, 0, 4294967295])).1 = .ok "a" ∧
      (p.fullMatch "a").1 = false := by
  have run : (ofString? "(a|)+\\1").toOption.map (fun p => (p.isInvalidating,
      decide (p.compiled.tree.shape? 4 = some (.repetition 3 ⟨1, none⟩ false)),
      decide (p.compiled.tree.shape? 5 = some (.backref 3)),
      (p.generate {} (WordStream.ofWords #[500000000, 0, 4294967295])).1, (p.fullMatch "a").1)) =
        some (false, true, true, .ok "a", false) := by
    decide +kernel
  obtain ⟨p, h, all⟩ := exists_inUse run
  have unmarked : p.isInvalidating = false := congrArg (fun r => r.1) all
  have loop : p.compiled.tree.shape? 4 = some (.repetition 3 ⟨1, none⟩ false) :=
    of_decide_eq_true (congrArg (fun r => r.2.1) all)
  have backref : p.compiled.tree.shape? 5 = some (.backref 3) :=
    of_decide_eq_true (congrArg (fun r => r.2.2.1) all)
  have generated : (p.generate {} (WordStream.ofWords #[500000000, 0, 4294967295])).1 = .ok "a" :=
    congrArg (fun r => r.2.2.2.1) all
  have rejected : (p.fullMatch "a").1 = false := congrArg (fun r => r.2.2.2.2) all
  refine ⟨p, h, unmarked, ⟨5, 3, backref, fun certain => ?_⟩, generated, rejected⟩
  have owns : p.compiled.tree.Owns 4 3 := ⟨_, loop, List.mem_cons_self⟩
  cases certain 4 _ (.single owns) loop

/-- A group that was left out: the generator makes up its text, while the matcher needs one that was
captured. -/
example : (ofString? "(a)?b\\1").toOption.map (fun p => (p.isInvalidating,
    (p.generate {} (WordStream.ofWords #[0])).1, (p.fullMatch "ba").1)) =
      some (false, .ok "ba", false) := by
  decide +kernel

end Pattern

end PatternSampler
