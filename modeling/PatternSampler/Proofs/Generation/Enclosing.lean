/-
# Generation and groups that do not capture

A group that does not capture has the strings of what stands in it.  If some nodes of a pattern are
put in such groups, the same strings are generated of it from the same random numbers, also where a
node is to break its own rule.  The texts of capturing groups are kept under other places, one for
one.

* `GenerationState.Moved` : states that differ in those places only.
* `Mirrored` : actions that do the same in such states.
* `Tree.Enclosed.generate` : strings of a node.
-/
import PatternSampler.Proofs.Generation.Mutants
import PatternSampler.Proofs.Tree.Enclosing

namespace PatternSampler

open PatternSampler.Tree

/-- The same random source, and the texts of groups in the places where the groups stand now. -/
structure GenerationState.Moved {σ : Type} (s : Finset ℕ) (g g' : GenerationState σ) : Prop where
  source : g'.source = g.source
  captures : ∀ id, g'.captures[outer s id]? = g.captures[id]?

/-- Two runs end in the same way; if they fail, then because a set is empty. -/
inductive SameEnd {σ α : Type} (s : Finset ℕ) :
    EStateM.Result SampleError (GenerationState σ) α →
    EStateM.Result SampleError (GenerationState σ) α → Prop
  | ok {a : α} {g g' : GenerationState σ} : g.Moved s g' → SameEnd s (.ok a g) (.ok a g')
  | error {g g' : GenerationState σ} :
      g.Moved s g' → SameEnd s (.error .emptySet g) (.error .emptySet g')

/-- Two actions do the same in states that differ in places only. -/
def Mirrored {σ α : Type} (s : Finset ℕ) (x x' : Generating σ α) : Prop :=
  ∀ g g' : GenerationState σ, g.Moved s g' → SameEnd s (x g) (x' g')

namespace Mirrored

variable {σ α β : Type} {s : Finset ℕ} {x x' y y' : Generating σ α} {f f' : α → Generating σ β}

theorem pure (a : α) : Mirrored s (pure a : Generating σ α) (pure a) :=
  fun _ _ moved => .ok moved

theorem throw : Mirrored s (throw .emptySet : Generating σ α) (throw .emptySet) :=
  fun _ _ moved => .error moved

/-- What is done afterwards may depend on the value, which is the same. -/
theorem bind (first : Mirrored s x x') (second : ∀ a, Mirrored s (f a) (f' a)) :
    Mirrored s (x >>= f) (x' >>= f') := by
  intro g g' moved
  have ends := first g g' moved
  show SameEnd s (EStateM.bind x f g) (EStateM.bind x' f' g')
  unfold EStateM.bind
  generalize x g = end₁ at ends
  generalize x' g' = end₂ at ends
  cases ends with
  | ok moved => exact second _ _ _ moved
  | error moved => exact .error moved

theorem ite {c : Prop} [Decidable c] (yes : Mirrored s x x') (no : Mirrored s y y') :
    Mirrored s (if c then x else y) (if c then x' else y') := by
  split
  · exact yes
  · exact no

/-- The text of a group is found where the group stands now. -/
theorem lastText? (id : ℕ) :
    Mirrored s (Generating.lastText? id : Generating σ _) (Generating.lastText? (outer s id)) := by
  intro g g' moved
  show SameEnd s (.ok g.captures[id]? g) (.ok g'.captures[outer s id]? g')
  rw [moved.captures]
  exact .ok moved

/-- The text of a group is kept where the group stands now. -/
theorem remember (id : ℕ) (capture : Option ℕ) (chars : List Char) :
    Mirrored s (Generating.remember id capture chars : Generating σ _)
      (Generating.remember (outer s id) capture chars) := by
  intro g g' moved
  cases capture with
  | none => exact .ok moved
  | some n =>
    refine .ok ⟨moved.source, fun id' => ?_⟩
    show (g'.captures.insert (outer s id) chars)[outer s id']? = (g.captures.insert id chars)[id']?
    rw [Std.TreeMap.getElem?_insert, Std.TreeMap.getElem?_insert, moved.captures]
    simp only [Nat.compare_eq_eq, (outer_strictMono s).injective.eq_iff]

/-- A group that does not capture keeps nothing. -/
theorem bind_remember {x x' : Generating σ (List Char)} (h : Mirrored s x x') (id : ℕ) :
    Mirrored s x (x' >>= Generating.remember id none) := by
  intro g g' moved
  have ends := h g g' moved
  show SameEnd s (x g) (EStateM.bind x' _ g')
  unfold EStateM.bind
  generalize x g = end₁ at ends
  generalize x' g' = end₂ at ends
  cases ends with
  | ok moved => exact .ok moved
  | error moved => exact .error moved

/-- A repetition keeps the texts in their order. -/
theorem collect {action action' : Generating σ (List Char)} (h : Mirrored s action action')
    (count : ℕ) (reversed : List Char) :
    Mirrored s (Generating.collect action count reversed)
      (Generating.collect action' count reversed) := by
  induction count generalizing reversed with
  | zero => exact .pure _
  | succ count ih => exact .bind h fun _ => ih _

/-- A repetition does the same if what is repeated does. -/
theorem generateTimes {body body' : Generating σ (List Char)} (h : Mirrored s body body')
    (isText same : Bool) (count : ℕ) :
    Mirrored s (Expr.generateTimes isText same count body)
      (Expr.generateTimes isText same count body') :=
  .ite (.bind h fun _ => .pure _) (.ite (.pure _) (.ite (.bind h fun _ => .pure _)
    (collect h count [])))

variable [RandomSource σ]

/-- The source is the same, so it gives the same number. -/
theorem draw (span : Span) : Mirrored s (draw span : Generating σ ℕ) (draw span) := by
  intro g g' moved
  show SameEnd s (.ok (RandomSource.draw span g.source).1 _)
    (.ok (RandomSource.draw span g'.source).1 { g' with source := _ })
  rw [moved.source]
  exact .ok ⟨rfl, moved.captures⟩

/-- The choice from a set draws at most one number. -/
theorem pick (set : CharSet) (invert : Bool) :
    Mirrored s (set.pick invert : Generating σ Char) (set.pick invert) := by
  unfold CharSet.pick
  refine .ite (.throw) (.bind (.draw _) fun rank => ?_)
  cases set.nth? invert rank with
  | none => exact .throw
  | some c => exact .pure c

/-- The choice of a place and of a character draws two numbers. -/
theorem corruptText (chars : List Char) :
    Mirrored s (corruptText chars : Generating σ (List Char)) (corruptText chars) :=
  .ite (.pure _) (.bind (.draw _) fun _ => .bind (.pick _ _) fun _ => .pure _)

/-- The number of times is drawn from the same spans. -/
theorem boundsDraw (b : Bounds) (slack : ℕ) (invalid reserved : Bool) :
    Mirrored s (b.draw slack invalid reserved : Generating σ ℕ)
      (b.draw slack invalid reserved) := by
  unfold Bounds.draw Bounds.drawInvalid Bounds.drawValid
  exact .ite (.bind (.draw _) fun _ => .ite (.draw _) (.draw _)) (.ite (.pure _) (.draw _))

end Mirrored

/-! ## Routes -/

/-- Two routes name the same node and lead through the same nodes. -/
structure Route.Moved (s : Finset ℕ) (r r' : Route) : Prop where
  breaks : ∀ id, r'.breaks (inner s id) = r.breaks id
  branch : ∀ id, r'.path.branch? (inner s id) = (r.path.branch? id).map (outer s)

namespace Route.Moved

variable {s : Finset ℕ} {r r' : Route}

/-- A node lies on the one path if it lies on the other. -/
theorem reserves (moved : r.Moved s r') (id : ℕ) :
    r'.path.reserves (inner s id) = r.path.reserves id := by
  rw [ReservedPath.reserves, ReservedPath.reserves, moved.branch, Option.isSome_map]

/-- No node is named, and no path leads to it. -/
theorem empty (s : Finset ℕ) : Route.Moved s {} {} :=
  ⟨fun _ => rfl, fun _ => rfl⟩

/-- The routes to a node and to what it has become. -/
theorem toward {t t' : Tree} (h : t.Enclosed s t') (ordered : t.Ordered) (linked : t.Linked)
    (ordered' : t'.Ordered) (linked' : t'.Linked) (id : ℕ) :
    (Route.toward t id).Moved s (Route.toward t' (inner s id)) where
  breaks := by
    intro place
    rw [Bool.eq_iff_iff, Route.breaks, Route.breaks, beq_iff_eq, beq_iff_eq]
    show some (inner s id) = some (inner s place) ↔ some id = some place
    rw [Option.some_inj, Option.some_inj, (inner_strictMono s).injective.eq_iff]
  branch := h.branch?_reserve ordered linked ordered' linked' id

end Route.Moved

/-! ## Nodes -/

namespace Tree.Enclosed

variable {σ : Type} {s : Finset ℕ} {t t' : Tree} {settings : Settings} {route route' : Route}
  {id : ℕ} {ids : List ℕ}

/-- A node or its group is known by its own place. -/
theorem id_expr_outer (h : t.Enclosed s t') (ordered' : t'.Ordered) (lt : id < t.size) :
    (t'.expr (outer s id)).id = outer s id :=
  id_expr ordered' (h.size ▸ outer_lt_inner lt)

/-- No fixed text is put in a group. -/
theorem isText_outer (h : t.Enclosed s t') (ordered : t.Ordered) (ordered' : t'.Ordered)
    (lt : id < t.size) : (t'.expr (outer s id)).isText = (t.expr id).isText := by
  obtain ⟨shape, look⟩ := exists_shape? lt
  rw [expr_eq ordered look]
  by_cases mem : id ∈ s
  · have enclosable := h.enclosable_of_mem mem look
    rw [expr_eq ordered' (h.groups id mem)]
    cases enclosable <;> rfl
  · rw [outer_of_notMem mem, expr_eq ordered' (h.nodes id shape look)]
    cases shape <;> rfl

/-- A branch has the place among the branches that it had. -/
theorem findIdx_outer (h : t.Enclosed s t') (ordered : t.Ordered) (ordered' : t'.Ordered)
    (earlier : ∀ id ∈ ids, id < t.size) (child : ℕ) :
    ((ids.map (outer s)).map t'.expr).findIdx (·.id == outer s child) =
      (ids.map t.expr).findIdx (·.id == child) := by
  induction ids with
  | nil => rfl
  | cons id ids ih =>
    obtain ⟨lt, others⟩ := List.forall_mem_cons.1 earlier
    rw [List.map_cons, List.map_cons, List.map_cons, List.findIdx_cons, List.findIdx_cons,
      ih others, id_expr ordered lt, h.id_expr_outer ordered' lt]
    have same : (outer s id == outer s child) = (id == child) := by
      rw [Bool.eq_iff_iff, beq_iff_eq, beq_iff_eq, (outer_strictMono s).injective.eq_iff]
    rw [same]

variable [RandomSource σ]

/-- Parts one after the other, each of which does the same. -/
theorem generateAll (each : ∀ id ∈ ids,
      Mirrored s ((t.expr id).generate settings route : Generating σ (List Char))
        ((t'.expr (outer s id)).generate settings route')) :
    Mirrored s (Expr.generateAll settings route (ids.map t.expr) : Generating σ (List Char))
      (Expr.generateAll settings route' ((ids.map (outer s)).map t'.expr)) := by
  induction ids with
  | nil =>
    rw [List.map_nil, List.map_nil, List.map_nil, Expr.generateAll, Expr.generateAll]
    exact .pure _
  | cons id ids ih =>
    obtain ⟨first, others⟩ := List.forall_mem_cons.1 each
    rw [List.map_cons, List.map_cons, List.map_cons, Expr.generateAll, Expr.generateAll]
    exact .bind first fun _ => .bind (ih others) fun _ => .pure _

/-- The part of a place, each of which does the same. -/
theorem generateNth (each : ∀ id ∈ ids,
      Mirrored s ((t.expr id).generate settings route : Generating σ (List Char))
        ((t'.expr (outer s id)).generate settings route')) (n : ℕ) :
    Mirrored s (Expr.generateNth settings route (ids.map t.expr) n : Generating σ (List Char))
      (Expr.generateNth settings route' ((ids.map (outer s)).map t'.expr) n) := by
  induction ids generalizing n with
  | nil =>
    rw [List.map_nil, List.map_nil, List.map_nil, Expr.generateNth, Expr.generateNth]
    exact .pure _
  | cons id ids ih =>
    obtain ⟨first, others⟩ := List.forall_mem_cons.1 each
    rw [List.map_cons, List.map_cons, List.map_cons]
    cases n with
    | zero =>
      rw [Expr.generateNth, Expr.generateNth]
      exact first
    | succ n =>
      rw [Expr.generateNth, Expr.generateNth]
      exact ih others n

/-- **The same strings are generated of a node and of its group** as of the node before. -/
theorem generate (h : t.Enclosed s t') (ordered : t.Ordered) (ordered' : t'.Ordered)
    (moved : route.Moved s route') (id : ℕ) (lt : id < t.size) :
    Mirrored s ((t.expr id).generate settings route : Generating σ (List Char))
      ((t'.expr (outer s id)).generate settings route') := by
  induction id using Nat.strong_induction_on with
  | _ id ih =>
    obtain ⟨shape, look⟩ := exists_shape? lt
    have earlier (r : ℕ) (mem : r ∈ shape.references) : r < t.size :=
      (ordered id shape look r mem).trans lt
    have below (r : ℕ) (mem : r ∈ shape.references) :
        Mirrored s ((t.expr r).generate settings route : Generating σ (List Char))
          ((t'.expr (outer s r)).generate settings route') :=
      ih r (ordered id shape look r mem) (earlier r mem)
    have node : Mirrored s ((t.expr id).generate settings route : Generating σ (List Char))
        ((t'.expr (inner s id)).generate settings route') := by
      rw [expr_eq ordered look, expr_eq ordered' (h.nodes id shape look)]
      cases shape with
      | text chars =>
        unfold Shape.moved Shape.unfold Expr.generate
        rw [moved.breaks]
        exact .ite (.corruptText _) (.pure _)
      | set set =>
        unfold Shape.moved Shape.unfold Expr.generate
        rw [moved.breaks]
        exact .bind (.pick _ _) fun _ => .pure _
      | concat parts =>
        unfold Shape.moved Shape.unfold Expr.generate
        exact generateAll below
      | alternation branches =>
        unfold Shape.moved Shape.unfold Expr.generate
        rw [moved.branch]
        cases route.path.branch? id with
        | some child =>
          have index : ((branches.map (outer s)).map t'.expr).findIdx (·.id == outer s child) =
              (branches.map t.expr).findIdx (·.id == child) :=
            h.findIdx_outer ordered ordered' earlier child
          show Mirrored s (Expr.generateNth _ _ _ _) (Expr.generateNth _ _ _ _)
          rw [index]
          exact generateNth below _
        | none =>
          have length : ((branches.map (outer s)).map t'.expr).length =
              (branches.map t.expr).length := by simp
          show Mirrored s _ (draw _ >>= _)
          rw [length]
          exact .bind (.draw _) fun n => generateNth below n
      | repetition body bounds same =>
        have part := below body List.mem_cons_self
        unfold Shape.moved Shape.unfold Expr.generate
        rw [moved.breaks, moved.reserves,
          h.isText_outer ordered ordered' (earlier body List.mem_cons_self)]
        exact .bind (.boundsDraw _ _ _ _) fun count => .generateTimes part _ _ _
      | group body name capture =>
        unfold Shape.moved Shape.unfold Expr.generate
        rw [← outer_of_notMem (h.notMem_of_group look)]
        exact .bind (below body List.mem_cons_self) fun chars => .remember id capture chars
      | backref target =>
        have part := below target List.mem_cons_self
        have lt := earlier target List.mem_cons_self
        unfold Shape.moved Shape.unfold Expr.generate
        cases settings.backrefs with
        | regenerate => exact part
        | replay =>
          rw [id_expr ordered lt, h.id_expr_outer ordered' lt]
          refine .bind (.lastText? target) fun found => ?_
          cases found with
          | some chars => exact .pure chars
          | none => exact part
    by_cases mem : id ∈ s
    · rw [expr_eq ordered' (h.groups id mem), Shape.unfold, Expr.generate]
      exact node.bind_remember _
    · rw [outer_of_notMem mem]
      exact node

end Tree.Enclosed

end PatternSampler
