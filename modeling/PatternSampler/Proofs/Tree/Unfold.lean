/-
# Unfolding trees

Where every node refers to earlier nodes only, the expression of a node is its shape with the
expressions of the nodes that it refers to put in their place.  What occurs in the expression of a
node is the expression of a node that is not later.

* `Tree.expr_eq` : the expression of a node.
* `Tree.exists_expr_of_part` : what occurs in it.
* `Tree.WellFormed` : what holds of a tree whose backreferences can be matched.
* `Tree.WellFormed.scoped` : in its expressions every backreference sees its group.
-/
import PatternSampler.Proofs.Tree.Parts

namespace PatternSampler

/-- The expression of a shape at a given place, if the expressions of all places are known. -/
def Shape.unfold (id : ℕ) (expr : ℕ → Expr) : Shape → Expr
  | text chars => .text id chars
  | set s => .set id s
  | concat parts => .concat id (parts.map expr)
  | alternation branches => .alternation id (branches.map expr)
  | repetition body bounds same => .repetition id (expr body) bounds same
  | group body _ capture => .group id (expr body) capture
  | backref target => .backref id (expr target)

theorem Shape.expr_eq_unfold {earlier : Array Expr} {expr : ℕ → Expr} {shape : Shape}
    (h : ∀ r ∈ shape.references, earlier.getD r default = expr r) :
    shape.expr earlier = shape.unfold earlier.size expr := by
  cases shape with
  | text chars => rfl
  | set s => rfl
  | concat parts =>
    rw [Shape.expr, unfold, List.map_congr_left]
    exact h
  | alternation branches =>
    rw [Shape.expr, unfold, List.map_congr_left]
    exact h
  | repetition body bounds same => rw [Shape.expr, unfold, h body List.mem_cons_self]
  | group body name capture => rw [Shape.expr, unfold, h body List.mem_cons_self]
  | backref target => rw [Shape.expr, unfold, h target List.mem_cons_self]

/-- Whatever is neither a capturing group nor a backreference leaves visible what is visible around
it. -/
theorem Shape.scoped_unfold {id : ℕ} {expr : ℕ → Expr} {hidden : Set ℕ} {shape : Shape}
    (branches : ∀ branches, shape = .alternation branches → branches ≠ [])
    (capture : shape.capture? = none) (plain : ∀ target, shape ≠ .backref target)
    (inner : ∀ child ∈ shape.children, (expr child).Scoped hidden) :
    (shape.unfold id expr).Scoped hidden := by
  cases shape with
  | text chars => exact .text
  | set s => exact .set
  | concat parts =>
    refine .concat fun e he => ?_
    obtain ⟨child, mem, rfl⟩ := List.mem_map.1 he
    exact inner child mem
  | alternation ids =>
    have ne : ids.map expr ≠ [] := by simpa using branches ids rfl
    refine .alternation ne fun e he => ?_
    obtain ⟨child, mem, rfl⟩ := List.mem_map.1 he
    exact inner child mem
  | repetition body bounds same => exact .repetition (inner body List.mem_cons_self)
  | group body name number =>
    cases capture
    exact .group (inner body List.mem_cons_self)
  | backref target => exact absurd rfl (plain target)

namespace Tree

/-! ## The expression of a node -/

/-- The expressions of the nodes of a list. -/
def exprsOf (nodes : List Node) : Array Expr :=
  nodes.foldl (fun earlier node => earlier.push (node.shape.expr earlier)) #[]

theorem exprsOf_concat (nodes : List Node) (node : Node) :
    exprsOf (nodes ++ [node]) = (exprsOf nodes).push (node.shape.expr (exprsOf nodes)) := by
  simp [exprsOf]

theorem size_exprsOf (nodes : List Node) : (exprsOf nodes).size = nodes.length := by
  induction nodes using List.reverseRecOn with
  | nil => rfl
  | append_singleton nodes node ih => rw [exprsOf_concat, Array.size_push, ih, List.length_append,
      List.length_singleton]

/-- Later nodes do not change the expressions of earlier ones. -/
theorem getElem?_exprsOf_append (nodes more : List Node) {id : ℕ} (lt : id < nodes.length) :
    (exprsOf (nodes ++ more))[id]? = (exprsOf nodes)[id]? := by
  induction more using List.reverseRecOn with
  | nil => rw [List.append_nil]
  | append_singleton more node ih =>
    have lt' : id < (exprsOf (nodes ++ more)).size := by
      rw [size_exprsOf, List.length_append]
      exact lt.trans_le (Nat.le_add_right _ _)
    rw [← List.append_assoc, exprsOf_concat, Array.getElem?_push, if_neg lt'.ne, ih]

theorem getElem?_exprsOf (before : List Node) (node : Node) (after : List Node) :
    (exprsOf (before ++ node :: after))[before.length]? =
      some (node.shape.expr (exprsOf before)) := by
  have lt : before.length < (before ++ [node]).length := by simp
  rw [List.append_cons, getElem?_exprsOf_append _ _ lt, exprsOf_concat, ← size_exprsOf]
  exact Array.getElem?_push_size

variable {t : Tree}

theorem exprs_eq (t : Tree) : t.exprs = exprsOf t.nodes.toList := by
  rw [exprs, exprsOf, Array.foldl_toList]

theorem lt_size_of_shape? {id : ℕ} {shape : Shape} (h : t.shape? id = some shape) :
    id < t.size := by
  rw [shape?, Option.map_eq_some_iff] at h
  obtain ⟨node, look, -⟩ := h
  exact (Array.getElem?_eq_some_iff.1 look).1

theorem exists_shape? {id : ℕ} (lt : id < t.size) : ∃ shape, t.shape? id = some shape :=
  ⟨_, by rw [shape?, Array.getElem?_eq_getElem lt]; rfl⟩

/-- What holds of the shapes of all nodes holds of each. -/
theorem shape_of_all {f : Shape → Bool} (all : t.nodes.all (fun node => f node.shape) = true)
    {id : ℕ} {shape : Shape} (look : t.shape? id = some shape) : f shape = true := by
  obtain ⟨node, found, rfl⟩ := Option.map_eq_some_iff.1 look
  exact Array.all_eq_true'.1 all node (Array.mem_of_getElem? found)

/-- The nodes before and after the one at a place. -/
theorem exists_split {id : ℕ} {shape : Shape} (h : t.shape? id = some shape) :
    ∃ before node after, t.nodes.toList = before ++ node :: after ∧ before.length = id ∧
      node.shape = shape := by
  rw [shape?, Option.map_eq_some_iff] at h
  obtain ⟨node, look, rfl⟩ := h
  rw [← Array.getElem?_toList] at look
  obtain ⟨lt, is⟩ := List.getElem?_eq_some_iff.1 look
  refine ⟨t.nodes.toList.take id, node, t.nodes.toList.drop (id + 1), ?_,
    List.length_take_of_le lt.le, rfl⟩
  rw [← is, List.getElem_cons_drop, List.take_append_drop]

/-- **The expression of a node is its shape unfolded**, if references lead to earlier nodes. -/
theorem expr_eq (ordered : t.Ordered) {id : ℕ} {shape : Shape} (h : t.shape? id = some shape) :
    t.expr id = shape.unfold id t.expr := by
  have earlier := ordered id shape h
  obtain ⟨before, node, after, split, rfl, rfl⟩ := exists_split h
  rw [expr, Array.getD_eq_getD_getElem?, exprs_eq, split, getElem?_exprsOf, Option.getD_some,
    Shape.expr_eq_unfold, size_exprsOf]
  intro r hr
  rw [expr, Array.getD_eq_getD_getElem?, Array.getD_eq_getD_getElem?, exprs_eq, split,
    getElem?_exprsOf_append _ _ (earlier r hr)]

/-- At a place without a node there is an empty text. -/
theorem expr_eq_default {id : ℕ} (h : t.shape? id = none) : t.expr id = .text 0 [] := by
  have none : t.exprs[id]? = none := by
    rw [shape?, Option.map_eq_none_iff] at h
    rw [Array.getElem?_eq_none_iff] at h ⊢
    rw [exprs_eq, size_exprsOf, Array.length_toList]
    exact h
  rw [expr, Array.getD_eq_getD_getElem?, none]
  rfl

/-! ## Occurrence -/

theorem shape?_of_expr_set (ordered : t.Ordered) {id place : ℕ} {set : CharSet}
    (h : t.expr id = .set place set) : place = id ∧ t.shape? id = some (.set set) := by
  rcases look : t.shape? id with _ | shape
  · rw [expr_eq_default look] at h
    cases h
  · rw [expr_eq ordered look] at h
    cases shape <;> cases h
    exact ⟨rfl, rfl⟩

theorem shape?_of_expr_group (ordered : t.Ordered) {id place : ℕ} {body : Expr}
    {capture : Option ℕ} (h : t.expr id = .group place body capture) :
    place = id ∧ ∃ child name, t.shape? id = some (.group child name capture) := by
  rcases look : t.shape? id with _ | shape
  · rw [expr_eq_default look] at h
    cases h
  · rw [expr_eq ordered look] at h
    cases shape <;> cases h
    exact ⟨rfl, _, _, rfl⟩

/-- What occurs in the expression of a node is the expression of that node or an earlier one. -/
theorem exists_expr_of_part (ordered : t.Ordered) {e : Expr} {id : ℕ}
    (part : Expr.Part e (t.expr id)) : ∃ id' ≤ id, e = t.expr id' := by
  induction id using Nat.strong_induction_on with
  | _ id ih =>
    rcases look : t.shape? id with _ | shape
    · rw [expr_eq_default look] at part
      cases part
      exact ⟨id, le_rfl, (expr_eq_default look).symm⟩
    have eq := expr_eq ordered look
    have earlier := ordered id shape look
    have inner {r : ℕ} (hr : r ∈ shape.references) (part : Expr.Part e (t.expr r)) :
        ∃ id' ≤ id, e = t.expr id' := by
      obtain ⟨id', le, is⟩ := ih r (earlier r hr) part
      exact ⟨id', le.trans (earlier r hr).le, is⟩
    rw [eq] at part
    cases shape with
    | text chars | set s | backref target =>
      cases part
      exact ⟨id, le_rfl, eq.symm⟩
    | concat parts =>
      cases part with
      | refl => exact ⟨id, le_rfl, eq.symm⟩
      | concat mem part =>
        obtain ⟨r, hr, rfl⟩ := List.mem_map.1 mem
        exact inner hr part
    | alternation branches =>
      cases part with
      | refl => exact ⟨id, le_rfl, eq.symm⟩
      | alternation mem part =>
        obtain ⟨r, hr, rfl⟩ := List.mem_map.1 mem
        exact inner hr part
    | repetition body bounds same =>
      cases part with
      | refl => exact ⟨id, le_rfl, eq.symm⟩
      | repetition part => exact inner List.mem_cons_self part
    | group body name capture =>
      cases part with
      | refl => exact ⟨id, le_rfl, eq.symm⟩
      | group part => exact inner List.mem_cons_self part

/-! ## Capture numbers -/

/-- The capture number of a node, if it is a capturing group. -/
def capture? (t : Tree) (id : ℕ) : Option ℕ :=
  (t.shape? id).bind Shape.capture?

theorem capture?_of_shape? {id n : ℕ} {body : ℕ} {name : Option String}
    (h : t.shape? id = some (.group body name (some n))) : t.capture? id = some n := by
  rw [capture?, h]
  rfl

theorem exists_capture?_of_hasGroup (ordered : t.Ordered) {id n : ℕ}
    (h : (t.expr id).HasGroup n) : ∃ g ≤ id, t.capture? g = some n := by
  obtain ⟨place, body, part⟩ := h
  obtain ⟨g, le, eq⟩ := exists_expr_of_part ordered part
  obtain ⟨-, child, name, look⟩ := shape?_of_expr_group ordered eq.symm
  exact ⟨g, le, capture?_of_shape? look⟩

/-- The greatest of some numbers is not less than any of them, nor than where one begins. -/
theorem le_foldl_max (f : Node → ℕ) (nodes : List Node) (start : ℕ) :
    start ≤ nodes.foldl (fun greatest node => max greatest (f node)) start ∧
      ∀ node ∈ nodes, f node ≤ nodes.foldl (fun greatest node => max greatest (f node)) start := by
  induction nodes generalizing start with
  | nil => exact ⟨le_rfl, by simp⟩
  | cons first others ih =>
    obtain ⟨le, all⟩ := ih (max start (f first))
    refine ⟨(le_max_left _ _).trans le, fun node hn => ?_⟩
    rcases List.mem_cons.1 hn with rfl | hn
    · exact (le_max_right _ _).trans le
    · exact all node hn

/-- The capture count is the greatest capture number. -/
theorem le_captureCount {id n : ℕ} (h : t.capture? id = some n) : n ≤ t.captureCount := by
  obtain ⟨shape, look, capture⟩ := Option.bind_eq_some_iff.1 h
  obtain ⟨before, node, after, split, -, rfl⟩ := exists_split look
  have le := (le_foldl_max (fun node => node.shape.capture?.getD 0) t.nodes.toList 0).2 node (by
    rw [split]
    exact List.mem_append_right before List.mem_cons_self)
  rw [capture, Option.getD_some] at le
  rwa [captureCount, ← Array.foldl_toList]

/-- The capture count is the least bound of all capture numbers. -/
theorem captureCount_le {t : Tree} {bound : ℕ}
    (all : ∀ id n, t.capture? id = some n → n ≤ bound) : t.captureCount ≤ bound := by
  have each : ∀ node ∈ t.nodes.toList, node.shape.capture?.getD 0 ≤ bound := by
    intro node mem
    obtain ⟨id, look⟩ := List.mem_iff_getElem?.1 mem
    rw [Array.getElem?_toList] at look
    rcases own : node.shape.capture? with _ | n
    · exact Nat.zero_le bound
    · refine all id n ?_
      rw [capture?, shape?, look]
      exact own
  rw [captureCount, ← Array.foldl_toList]
  generalize t.nodes.toList = nodes at each
  -- the fold stays below the bound wherever it starts below it
  suffices ∀ start ≤ bound, nodes.foldl
      (fun greatest node => max greatest (node.shape.capture?.getD 0)) start ≤ bound from
    this 0 (Nat.zero_le bound)
  induction nodes with
  | nil => exact fun start le => le
  | cons node nodes ih =>
    obtain ⟨head, tail⟩ := List.forall_mem_cons.1 each
    exact fun start le => ih tail _ (max_le le head)

/-! ## Trees whose backreferences can be matched -/

/-- References lead to earlier nodes, every alternation has a branch, only capturing groups are
referred to by backreferences, and no two groups have the same number. -/
structure WellFormed (t : Tree) : Prop where
  ordered : t.Ordered
  branches : ∀ id branches, t.shape? id = some (.alternation branches) → branches ≠ []
  targets : ∀ id target, t.shape? id = some (.backref target) →
    ∃ body name n, t.shape? target = some (.group body name (some n))
  unique : ∀ id id' n, t.capture? id = some n → t.capture? id' = some n → id = id'

/-- Every backreference sees its group, whatever is hidden, if that is no number of a group up to
the node. -/
theorem WellFormed.scoped (well : t.WellFormed) {id : ℕ} {hidden : Set ℕ}
    (visible : ∀ g ≤ id, ∀ n, t.capture? g = some n → n ∉ hidden) :
    (t.expr id).Scoped hidden := by
  induction id using Nat.strong_induction_on generalizing hidden with
  | _ id ih =>
    rcases look : t.shape? id with _ | shape
    · rw [expr_eq_default look]
      exact .text
    have earlier := well.ordered id shape look
    rw [expr_eq well.ordered look]
    cases shape with
    | group body name capture =>
      have lt : body < id := earlier body List.mem_cons_self
      cases capture with
      | none => exact .group (ih body lt fun g hg => visible g (hg.trans lt.le))
      | some n =>
        have own := capture?_of_shape? look
        refine .capture (ih body lt fun g hg m hm => ?_) (Or.inr fun has => ?_)
        · rintro (rfl | mem)
          · exact absurd (well.unique g id m hm own) (hg.trans_lt lt).ne
          · exact visible g (hg.trans lt.le) m hm mem
        · obtain ⟨g, hg, same⟩ := exists_capture?_of_hasGroup well.ordered has
          exact absurd (well.unique g id n same own) (hg.trans_lt lt).ne
    | backref target =>
      have lt : target < id := earlier target List.mem_cons_self
      obtain ⟨body, name, n, group⟩ := well.targets id target look
      have sees : n ∉ hidden := visible target lt.le n (capture?_of_shape? group)
      rw [Shape.unfold, expr_eq well.ordered group]
      exact .backref sees
    | text | set | concat | alternation | repetition =>
      refine Shape.scoped_unfold (fun branches eq => ?_) rfl (by simp) fun child mem => ?_
      · exact well.branches id branches (eq ▸ look)
      · exact ih child (earlier child mem) fun g hg => visible g (hg.trans (earlier child mem).le)

/-- Without backreferences there is nothing to be seen. -/
theorem scoped_univ (ordered : t.Ordered)
    (branches : ∀ id branches, t.shape? id = some (.alternation branches) → branches ≠ [])
    (plain : ∀ id target, t.shape? id ≠ some (.backref target)) (id : ℕ) :
    (t.expr id).Scoped Set.univ := by
  induction id using Nat.strong_induction_on with
  | _ id ih =>
    rcases look : t.shape? id with _ | shape
    · rw [expr_eq_default look]
      exact .text
    have earlier := ordered id shape look
    rw [expr_eq ordered look]
    cases shape with
    | group body name capture =>
      have inner := ih body (earlier body List.mem_cons_self)
      cases capture with
      | none => exact .group inner
      | some n => exact .capture (by rwa [Set.insert_eq_of_mem (Set.mem_univ n)]) (Or.inl trivial)
    | backref target => exact absurd look (plain id target)
    | text | set | concat | alternation | repetition =>
      refine Shape.scoped_unfold (fun ids eq => ?_) rfl (by simp) fun child mem => ?_
      · exact branches id ids (eq ▸ look)
      · exact ih child (earlier child mem)

end Tree

end PatternSampler
