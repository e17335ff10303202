/-
# Programs and groups that do not capture

A group that does not capture has the code of what stands in it.  So a pattern has the same program
if some of its nodes are put in such groups; what is repeated is a group then, and no longer a node,
but none of these nodes is a fixed text.

* `Expr.SameUnit` : expressions that may be repeated in place of each other.
* `Tree.Enclosed.sameUnit` : the code of a node and of its group.
* `Phrase.Finishes.program_enclosed` : the program of a pattern.
-/
import PatternSampler.Proofs.Reading.Displacing
import PatternSampler.Proofs.Unmarked

namespace PatternSampler

open PatternSampler.Tree

/-! ## Expressions -/

namespace Expr

/-- Two expressions have the same code, also where they are repeated. -/
structure SameUnit (e e' : Expr) : Prop extends SameCode e e' where
  lead : e'.lead = e.lead
  unit : SameCode e.unit e'.unit

variable {e e' : Expr} {es es' : List Expr}

/-- An expression may be repeated in place of itself. -/
theorem SameUnit.refl (e : Expr) : SameUnit e e :=
  ⟨.refl e, rfl, .refl _⟩

/-- What is no fixed text is repeated as a whole. -/
theorem lead_unit_of_isText (plain : e.isText = false) : e.lead = [] ∧ e.unit = e := by
  cases e with
  | text => cases plain
  | _ => exact ⟨rfl, rfl⟩

/-- Without fixed texts the same code is enough. -/
theorem SameCode.sameUnit (same : SameCode e e') (plain : e.isText = false)
    (plain' : e'.isText = false) : SameUnit e e' := by
  obtain ⟨lead, unit⟩ := lead_unit_of_isText plain
  obtain ⟨lead', unit'⟩ := lead_unit_of_isText plain'
  exact ⟨same, lead'.trans lead.symm, by rw [unit, unit']; exact same⟩

/-- Parts with the same code, each in its place, have the same code together. -/
theorem SameCodeAll.of_forall₂ (each : List.Forall₂ SameUnit es es') : SameCodeAll es es' := by
  induction each with
  | nil => exact ⟨rfl⟩
  | cons head _ ih => exact .cons head.toSameCode ih

/-- A sequence is repeated as a whole, so the code of its parts is enough. -/
theorem SameUnit.concat (each : List.Forall₂ SameUnit es es') :
    SameUnit (concat 0 es) (concat 0 es') := by
  exact SameCode.sameUnit ⟨(SameCodeAll.of_forall₂ each).emit⟩ rfl rfl

/-- A choice is repeated as a whole, so the code of its branches is enough. -/
theorem SameUnit.alternation (each : List.Forall₂ SameUnit es es') :
    SameUnit (alternation 0 es) (alternation 0 es') := by
  exact SameCode.sameUnit ⟨sameCode_any (each.imp fun _ _ => SameUnit.toSameCode)⟩ rfl rfl

end Expr

/-! ## Nodes -/

namespace Tree.Enclosed

variable {s : Finset ℕ} {t t' : Tree} {d d' : Draft} {id : ℕ}

/-- As many sets stand before a node as before. -/
theorem rank (h : t.Enclosed s t') (id : ℕ) : t'.rank (inner s id) = t.rank id := by
  have moved (shape : Shape) : (shape.moved (outer s)).isSet = shape.isSet := by
    cases shape <;> rfl
  induction id with
  | zero => rfl
  | succ id ih =>
    have here : (t'.shape? (inner s id)).any Shape.isSet = (t.shape? id).any Shape.isSet := by
      rw [h.shape?_inner, Option.any_map]
      congr 1
      funext shape
      exact moved shape
    have behind : t'.rank (inner s id + 1) = t.rank (id + 1) := by
      rw [Tree.rank, Tree.rank, Nat.count_succ, Nat.count_succ, here]
      congr 1
    rw [inner_succ]
    by_cases mem : id ∈ s
    · have group : ¬ (t'.shape? (outer s id)).any Shape.isSet = true := by
        rw [h.groups id mem]
        exact Bool.false_ne_true
      rw [Tree.rank, Nat.count_succ, if_neg group, outer_of_mem mem]
      exact behind
    · rw [outer_of_notMem mem]
      exact behind

/-- **A node and its group have the code that the node had before**, wherever they are repeated. -/
theorem sameUnit (h : t.Enclosed s t') (well : t.WellFormed) (ordered' : t'.Ordered)
    {rank rank' : ℕ → ℕ} (ranks : ∀ id, rank' (inner s id) = rank id) (id : ℕ)
    (lt : id < t.size) :
    Expr.SameUnit ((t.expr id).skeleton rank) ((t'.expr (outer s id)).skeleton rank') := by
  induction id using Nat.strong_induction_on with
  | _ id ih =>
    obtain ⟨shape, look⟩ := exists_shape? lt
    have below (r : ℕ) (mem : r ∈ shape.references) :
        Expr.SameUnit ((t.expr r).skeleton rank) ((t'.expr (outer s r)).skeleton rank') := by
      have earlier := well.ordered id shape look r mem
      exact ih r earlier (earlier.trans lt)
    have all (ids : List ℕ) (refs : ∀ r ∈ ids, r ∈ shape.references) : List.Forall₂ Expr.SameUnit
        (Expr.skeletonAll rank (ids.map t.expr))
        (Expr.skeletonAll rank' ((ids.map (outer s)).map t'.expr)) := by
      rw [Expr.skeletonAll_eq_map, Expr.skeletonAll_eq_map, List.map_map, List.map_map,
        List.map_map, List.forall₂_map_left_iff, List.forall₂_map_right_iff, List.forall₂_same]
      exact fun r mem => below r (refs r mem)
    have node : Expr.SameUnit ((t.expr id).skeleton rank)
        ((t'.expr (inner s id)).skeleton rank') := by
      rw [expr_eq well.ordered look, expr_eq ordered' (h.nodes id shape look)]
      cases shape with
      | text chars => exact .refl _
      | set set =>
        rw [Shape.moved, Shape.unfold, Shape.unfold, Expr.skeleton, Expr.skeleton, ranks]
        exact .refl _
      | concat parts => exact .concat (all parts fun _ mem => mem)
      | alternation branches => exact .alternation (all branches fun _ mem => mem)
      | repetition body bounds same =>
        have part := below body List.mem_cons_self
        exact (Expr.SameCode.repetition part.lead part.unit 0 bounds same).sameUnit rfl rfl
      | group body name capture =>
        have part := below body List.mem_cons_self
        exact (part.toSameCode.group 0 capture).sameUnit rfl rfl
      | backref target =>
        -- what is referred to captures, so it is not put in a group
        obtain ⟨body, name, n, group⟩ := well.targets id target look
        rw [Shape.moved, Shape.unfold, Shape.unfold, outer_of_notMem (h.notMem_of_group group),
          expr_eq well.ordered group, expr_eq ordered' (h.nodes target _ group)]
        exact .refl _
    by_cases mem : id ∈ s
    · have enclosable := h.enclosable_of_mem mem look
      have plain : ((t.expr id).skeleton rank).isText = false := by
        rw [expr_eq well.ordered look]
        cases enclosable <;> rfl
      -- the code of the group is the code of what stands in it
      rw [expr_eq ordered' (h.groups id mem)]
      exact Expr.SameCode.sameUnit ⟨node.emit⟩ plain rfl
    · rw [outer_of_notMem mem]
      exact node

/-- Groups that do not capture have no number. -/
theorem captureCount (h : t.Enclosed s t') : t'.captureCount = t.captureCount := by
  refine captureCount_congr fun n => ⟨?_, ?_⟩
  · rintro ⟨place, own⟩
    obtain ⟨shape', look, own⟩ := Option.bind_eq_some_iff.1 own
    rcases h.cases_shape? look with ⟨id, shape, -, here, rfl⟩ | ⟨id, -, -, rfl⟩
    · rw [Shape.capture?_moved] at own
      exact ⟨id, Option.bind_eq_some_iff.2 ⟨shape, here, own⟩⟩
    · cases own
  · rintro ⟨id, own⟩
    obtain ⟨shape, look, own⟩ := Option.bind_eq_some_iff.1 own
    rw [← Shape.capture?_moved (outer s)] at own
    exact ⟨inner s id, Option.bind_eq_some_iff.2 ⟨_, h.nodes id shape look, own⟩⟩

end Tree.Enclosed

/-- **A pattern with some nodes in groups has the same program.** -/
theorem Phrase.Finishes.program_enclosed {φ φ' : Phrase} {pattern pattern' : String}
    {c c' : Compiled} {s : Finset ℕ} {d d' : Draft} (h : φ.Finishes pattern c d)
    (h' : φ'.Finishes pattern' c' d') (enclosed : d.Enclosed s d')
    (root : c'.root = outer s c.root) : c'.program = c.program := by
  have tree : c.tree.Enclosed s c'.tree := by
    rw [← h.finished, ← h'.finished]
    exact enclosed.finish c.root c'.root
  have well := Compiled.ofPattern?_wellFormed h.read
  have well' := Compiled.ofPattern?_wellFormed h'.read
  have lt : c.root < c.tree.size := (Compiled.ofPattern?_size h.read).ge
  have same := tree.sameUnit well well'.ordered enclosed.tree.rank c.root lt
  rw [← root] at same
  rw [h.program_eq, h'.program_eq, tree.captureCount]
  exact same.wideProgram _

end PatternSampler
