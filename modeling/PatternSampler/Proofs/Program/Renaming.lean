/-
# Code and the places of nodes

The places of nodes count for the code of an expression only in that the set of each place is kept
once.  So the code of a skeleton is that of the expression, with the rank of each place instead of
the place.

* `Code.ranked` : code with ranks instead of places.
* `Renames` : two ways of adding code differ in this only.
* `Expr.renames_skeleton` : the code of a skeleton.
-/
import PatternSampler.Proofs.Program.Pieces
import PatternSampler.Proofs.Tree.Skeleton

namespace PatternSampler

namespace Expr

variable {rank : ℕ → ℕ}

/-- The places of nodes do not count for what a repetition reads once. -/
theorem lead_skeleton (e : Expr) : (e.skeleton rank).lead = e.lead := by
  cases e with
  | backref id target =>
    cases target with
    | group gid body capture => cases capture <;> rfl
    | _ => rfl
  | _ => rfl

/-- What is repeated in a skeleton is the skeleton of what is repeated. -/
theorem unit_skeleton (e : Expr) : (e.skeleton rank).unit = e.unit.skeleton rank := by
  cases e with
  | backref id target =>
    cases target with
    | group gid body capture => cases capture <;> rfl
    | _ => rfl
  | _ => rfl

end Expr

/-! ## Ways of adding code -/

/-- Code in which the sets are known by the ranks of their places. -/
def Code.ranked (rank : ℕ → ℕ) (c : Code) : Code :=
  { c with sets := c.sets.map fun entry => (rank entry.1, entry.2) }

/-- The sets of the code stand at certain places. -/
def Code.SetsAt (places : Set ℕ) (c : Code) : Prop :=
  ∀ entry ∈ c.sets, entry.1 ∈ places

/-- Two ways of adding code do the same, but one knows the sets by their places and the other one by
the ranks of these. -/
structure Renames (places : Set ℕ) (rank : ℕ → ℕ) (body body' : Code → Code) : Prop where
  known : ∀ c : Code, c.SetsAt places → (body c).SetsAt places
  same : ∀ c : Code, c.SetsAt places → body' (c.ranked rank) = (body c).ranked rank

namespace Renames

variable {places : Set ℕ} {rank : ℕ → ℕ} {body body' body₁ body₁' body₂ body₂' : Code → Code}

/-- Nothing is added. -/
theorem skip : Renames places rank id id :=
  ⟨fun _ known => known, fun _ _ => rfl⟩

/-- An instruction is added that does not refer to a set. -/
theorem inst (inst : Inst) : Renames places rank (Code.add inst) (Code.add inst) :=
  ⟨fun _ known => known, fun _ _ => rfl⟩

theorem save (slot : ℕ) : Renames places rank (Code.addSave slot) (Code.addSave slot) :=
  ⟨fun _ known => known, fun _ _ => rfl⟩

/-- The characters of a text are added. -/
theorem chars (chars : List Char) :
    Renames places rank (Code.addChars chars) (Code.addChars chars) :=
  ⟨fun _ known => known, fun _ _ => rfl⟩

/-- Sets at different places have different ranks, so one is found where the other one is. -/
theorem set (injective : Set.InjOn rank places) {id : ℕ} (mem : id ∈ places) (s : CharSet) :
    Renames places rank (Code.addSet id s) (Code.addSet (rank id) s) where
  known := by
    intro c known
    unfold Code.addSet
    split
    · exact known
    · intro entry added
      rcases Array.mem_push.1 added with old | rfl
      · exact known entry old
      · exact mem
  same := by
    intro c known
    -- all sets of the code are known, and ranks tell them apart
    have found : (c.ranked rank).sets.findIdx? (·.1 == rank id) =
        c.sets.findIdx? (·.1 == id) := by
      have alike (i : ℕ) (lt : i < c.sets.size) :
          (rank c.sets[i].1 == rank id) = (c.sets[i].1 == id) := by
        rw [Bool.eq_iff_iff, beq_iff_eq, beq_iff_eq]
        exact injective.eq_iff (known _ (Array.getElem_mem lt)) mem
      ext i
      rw [Code.ranked, Array.findIdx?_map, Array.findIdx?_eq_some_iff_getElem,
        Array.findIdx?_eq_some_iff_getElem]
      simp only [Function.comp_apply, alike]
    unfold Code.addSet
    rw [found]
    split
    · rfl
    · simp [Code.ranked]

/-- Two pieces of code are added one after the other. -/
theorem seq (first : Renames places rank body₁ body₁') (second : Renames places rank body₂ body₂') :
    Renames places rank (fun c => body₂ (body₁ c)) (fun c => body₂' (body₁' c)) where
  known := fun c known => second.known _ (first.known c known)
  same := by
    intro c known
    rw [first.same c known, second.same _ (first.known c known)]

/-- A piece of code is added between two instructions that keep where it begins and ends. -/
theorem capture (h : Renames places rank body body') (n : ℕ) :
    Renames places rank (Code.addCaptured n body) (Code.addCaptured n body') :=
  ((save (2 * n)).seq h).seq (save (2 * n + 1))

/-- A piece of code is added a number of times. -/
theorem times (h : Renames places rank body body') (count : ℕ) :
    Renames places rank (fun c => c.times body count) (fun c => c.times body' count) := by
  induction count with
  | zero => exact skip
  | succ count ih => exact h.seq ih

/-- A piece of code is added so that it may be left out.  Where code stands does not depend on its
sets. -/
theorem optional (h : Renames places rank body body') :
    Renames places rank (Code.addOptional body) (Code.addOptional body') where
  known := fun c known => h.known (c.add .nop) known
  same := fun c known =>
    congrArg (fun inner : Code => inner.patch c.here (.split (c.add .nop).here inner.here))
      (h.same (c.add .nop) known)

/-- A piece of code is added in a loop. -/
theorem loop (h : Renames places rank body body') :
    Renames places rank (Code.addLoop body) (Code.addLoop body') where
  known := fun c known => h.known ((c.takeSlot.add .nop).add (.save c.nextSlot)) known
  same := fun c known =>
    congrArg (fun inner : Code =>
        ((inner.add (.progress c.nextSlot)).add (.jump c.here)).patch c.here
          (.split (c.takeSlot.add .nop).here
            ((inner.add (.progress c.nextSlot)).add (.jump c.here)).here))
      (h.same ((c.takeSlot.add .nop).add (.save c.nextSlot)) known)

/-- A piece of code is added as often as the bounds demand and allow. -/
theorem repeated (h : Renames places rank body body') (bounds : Bounds) :
    Renames places rank (fun c => c.addRepeated bounds body)
      (fun c => c.addRepeated bounds body') := by
  unfold Code.addRepeated
  cases bounds.most with
  | none => exact (h.times bounds.least).seq h.loop
  | some most => exact (h.times bounds.least).seq (h.optional.times (most - bounds.least))

/-- Two pieces of code are added to choose from. -/
theorem choice (first : Renames places rank body₁ body₁')
    (second : Renames places rank body₂ body₂') :
    Renames places rank (Code.addChoice body₁ body₂) (Code.addChoice body₁' body₂') where
  known := fun c known => second.known _ (first.known (c.add .nop) known)
  same := by
    intro c known
    have inner := first.same (c.add .nop) known
    have known' := first.known (c.add .nop) known
    unfold Code.addChoice
    dsimp only
    have start : ((c.ranked rank).add .nop) = (c.add .nop).ranked rank := rfl
    rw [start, inner]
    exact congrArg (fun outer : Code => outer.patch (body₁ (c.add .nop)).here (.jump outer.here))
      (second.same (Code.patch c.here _ ((body₁ (c.add .nop)).add .nop)) known')

end Renames

/-! ## Expressions -/

namespace Expr

variable {places hidden : Set ℕ} {rank : ℕ → ℕ}

/-- Expressions one after the other. -/
theorem renames_skeletonAll {es : List Expr}
    (each : ∀ e ∈ es, Renames places rank e.emit (e.skeleton rank).emit) :
    Renames places rank (emitAll es) (emitAll (skeletonAll rank es)) := by
  induction es with
  | nil => exact .skip
  | cons e es ih =>
    obtain ⟨head, tail⟩ := List.forall_mem_cons.1 each
    exact head.seq (ih tail)

/-- A choice of expressions. -/
theorem renames_skeletonAny {es : List Expr}
    (each : ∀ e ∈ es, Renames places rank e.emit (e.skeleton rank).emit) :
    Renames places rank (emitAny es) (emitAny (skeletonAll rank es)) := by
  induction es with
  | nil => exact .skip
  | cons e es ih =>
    obtain ⟨head, tail⟩ := List.forall_mem_cons.1 each
    cases es with
    | nil => exact head
    | cons e' es =>
      exact head.choice (ih tail)

/-- **The code of a skeleton** is that of the expression, with ranks instead of places. -/
theorem renames_skeleton (injective : Set.InjOn rank places) {e : Expr} (sees : e.Scoped hidden)
    (sets : ∀ id s, Part (set id s) e → id ∈ places) :
    Renames places rank e.emit (e.skeleton rank).emit := by
  induction e using Expr.unit_induct generalizing hidden with
  | text id chars => exact .chars chars
  | set id s => exact .set injective (sets id s .refl) s
  | concat id parts ih =>
    cases sees with
    | concat all =>
      exact renames_skeletonAll fun e mem =>
        ih e mem (all e mem) fun id s part => sets id s (.concat mem part)
  | alternation id branches ih =>
    cases sees with
    | alternation _ all =>
      exact renames_skeletonAny fun e mem =>
        ih e mem (all e mem) fun id s part => sets id s (.alternation mem part)
  | repetition id body bounds same ih =>
    cases sees with
    | repetition inner =>
      -- of a text only the last character is repeated, and there is no set in it
      have unit : Renames places rank body.unit.emit (body.unit.skeleton rank).emit := by
        refine ih inner.unit fun id s part => ?_
        cases body with
        | text => cases part
        | _ => exact sets id s (.repetition part)
      have all := (Renames.chars body.lead).seq (unit.repeated bounds)
      rw [funext fun c => emit_repetition id body bounds same c, skeleton,
        funext fun c => emit_repetition 0 (body.skeleton rank) bounds same c, lead_skeleton,
        unit_skeleton]
      exact all
  | group id body capture ih =>
    cases sees with
    | group inner => exact ih inner fun id s part => sets id s (.group part)
    | @capture _ _ n _ inner _ =>
      exact (ih inner fun id s part => sets id s (.group part)).capture n
  | backref id target =>
    cases sees with
    | @backref _ _ _ n => exact .inst (.backref n)

end Expr

end PatternSampler
