/-
# The meaning of code

The code of an expression realizes the passage that the expression stands for.  The statement is
about code at any place of any program that contains it, so that it can be proved by induction over
the expression.

* `Expr.Fits` says that an expression has numbers within a limit and its sets in a table.
* `Emits` says of a piece of code that it realizes a passage wherever it is added.
* `Expr.emits` : the code of an expression does so.
-/
import PatternSampler.Proofs.Program.Layout
import PatternSampler.Proofs.Program.Segment
import PatternSampler.Proofs.Tree.Parts

namespace PatternSampler

/-! ## Expressions that fit -/

/-- The capture numbers stay within a limit, and the node of a set determines the set. -/
structure Expr.Fits (limit : ℕ) (table : ℕ → Option CharSet) (e : Expr) : Prop where
  groups : ∀ n, e.HasGroup n → n ≤ limit
  sets : ∀ id s, Expr.Part (.set id s) e → table id = some s

/-- What fits has parts that fit. -/
theorem Expr.Fits.of_part {limit : ℕ} {table : ℕ → Option CharSet} {e f : Expr}
    (h : f.Fits limit table) (part : Expr.Part e f) : e.Fits limit table where
  groups := fun n hn => h.groups n (hn.of_part part)
  sets := fun id s hs => h.sets id s (hs.trans part)

/-- What is repeated of an expression fits if the expression does. -/
theorem Expr.Fits.unit {limit : ℕ} {table : ℕ → Option CharSet} {e : Expr}
    (h : e.Fits limit table) : e.unit.Fits limit table := by
  cases e with
  | text id chars =>
    refine ⟨fun n hn => h.groups n hn.of_unit, fun _ _ part => ?_⟩
    cases part
  | _ => exact h

variable {p : Program} {input : List Char} {hidden groups : Set ℕ} {limit : ℕ}
  {table : ℕ → Option CharSet}

/-! ## Pieces with a meaning -/

/-- The slots that code may write if `free` is the first free slot where it begins and it has groups
with these numbers. -/
def writesFrom (groups : Set ℕ) (free : ℕ) : Set ℕ :=
  {slot | free ≤ slot ∨ slot / 2 ∈ groups}

/-- More groups and earlier free slots are more places to write to. -/
theorem writesFrom_subset {more : Set ℕ} {free later : ℕ} (sub : groups ⊆ more)
    (le : free ≤ later) : writesFrom groups later ⊆ writesFrom more free := by
  rintro slot (h | h)
  · exact Or.inl (le.trans h)
  · exact Or.inr (sub h)

/-- A piece that is added to valid code realizes the passage `D` in every program that contains it.
The numbers of its groups are `groups`; to others up to `limit` it may refer. -/
structure Emits (p : Program) (input : List Char) (hidden groups : Set ℕ) (limit : ℕ)
    (table : ℕ → Option CharSet) (own : List (Option ℕ)) (loops : ℕ) (body : Code → Code)
    (D : Passage) : Prop where
  piece : Piece (Set.Iic limit) table own loops body
  realizes : ∀ c, c.Valid (2 * (limit + 1)) table → (body c).Within p →
    Realizes p input hidden (writesFrom groups c.nextSlot) c.here (body c).here D

namespace Emits

variable {own own' : List (Option ℕ)} {loops loops' : ℕ} {body body' : Code → Code}
  {D D' : Passage} {R : Expr → Passage} {e : Expr}

/-- Only which places the code leads to counts. -/
theorem congr (h : Emits p input hidden groups limit table own loops body D)
    (iff : ∀ s t, D s t ↔ D' s t) : Emits p input hidden groups limit table own loops body D' where
  piece := h.piece
  realizes := fun c valid within => (h.realizes c valid within).congr iff

/-- Code may be said to have more groups than it has. -/
theorem mono {more : Set ℕ} (h : Emits p input hidden groups limit table own loops body D)
    (sub : groups ⊆ more) : Emits p input hidden more limit table own loops body D where
  piece := h.piece
  realizes := fun c valid within =>
    (h.realizes c valid within).mono (writesFrom_subset sub le_rfl)

/-- Nothing is added. -/
theorem skip : Emits p input hidden groups limit table [] 0 id (fun s t => s = t) where
  piece := .skip
  realizes := fun c _ _ => .skip c.here

/-- The characters of a text are added. -/
theorem chars (text : List Char) :
    Emits p input hidden groups limit table (List.replicate text.length none) 0
      (Code.addChars text) (Reads input text) where
  piece := .chars text
  realizes := by
    intro c valid within
    rw [Code.here_addChars]
    exact .chars fun k x hx => within.insts _ _ (c.getElem?_addChars text hx)

/-- An instruction that takes a character of the set of a node is added. -/
theorem set {id : ℕ} {s : CharSet} (known : table id = some s) :
    Emits p input hidden groups limit table [some id] 0 (Code.addSet id s)
      (fun t u => ∃ x, s.accepts x = true ∧ Reads input [x] t u) where
  piece := .set known
  realizes := by
    intro c valid within
    obtain ⟨index, insts, entry⟩ := Code.exists_addSet_eq valid known
    have look : (c.addSet id s).insts[c.here]? = some (.set index) := by
      rw [insts]
      exact Array.getElem?_push_size
    rw [(Steady.addSet id s).here]
    exact .set (within.insts _ _ look) (within.sets _ _ entry)

/-- An instruction that takes the text of a group again is added. -/
theorem backref {n : ℕ} (le : n ≤ limit) (room : 2 * limit + 1 < p.slotCount)
    (visible : n ∉ hidden) :
    Emits p input hidden groups limit table [none] 0 (Code.add (.backref n))
      (fun s t => ∃ w, s.captures n = some w ∧ Reads input w s t) where
  piece := .backref le
  realizes := by
    intro c _ within
    rw [Code.here_add]
    exact .backref within.last (by omega) visible

/-- Two pieces of code are added one after the other. -/
theorem seq (first : Emits p input hidden groups limit table own loops body D)
    (second : Emits p input hidden groups limit table own' loops' body' D') :
    Emits p input hidden groups limit table (own ++ own') (loops + loops')
      (fun c => body' (body c)) (Relation.Comp D D') where
  piece := first.piece.seq second.piece
  realizes := by
    intro c valid within
    obtain ⟨valid', slots⟩ := first.piece.valid valid
    have left := first.realizes c valid (second.piece.steady.front_within within)
    have right := second.realizes _ valid' within
    exact left.seq (right.mono (writesFrom_subset subset_rfl (by omega)))

/-- Two pieces of code are added to choose from. -/
theorem choice (first : Emits p input hidden groups limit table own loops body D)
    (second : Emits p input hidden groups limit table own' loops' body' D') :
    Emits p input hidden groups limit table (none :: (own ++ none :: own')) (loops + loops')
      (Code.addChoice body body') (fun s t => D s t ∨ D' s t) where
  piece := first.piece.choice second.piece
  realizes := by
    intro c valid within
    obtain ⟨inner, split, jump, whole⟩ :=
      first.piece.steady.choice_within second.piece.steady within
    have start : (c.openChoice own.length).Valid (2 * (limit + 1)) table := valid.add _
    obtain ⟨valid', slots⟩ := first.piece.valid start
    have left := first.realizes _ start inner
    have right := second.realizes _ (valid'.add (.jump (c.addChoice body body').here))
      (whole.symm ▸ within)
    rw [whole, Code.here_add] at right
    rw [Code.here_openChoice] at left
    have later : c.nextSlot ≤ (body (c.openChoice own.length)).nextSlot :=
      slots ▸ Nat.le_add_right _ _
    exact .choice split left jump (right.mono (writesFrom_subset subset_rfl later))

/-! ### Repetition -/

/-- A piece of code is added a number of times. -/
theorem times (h : Emits p input hidden groups limit table own loops body (R e)) (count : ℕ) :
    Emits p input hidden groups limit table (List.replicate count own).flatten (count * loops)
      (fun c => c.times body count) (InOrder R (List.replicate count e)) where
  piece := h.piece.times count
  realizes := by
    induction count with
    | zero =>
      intro c _ _
      exact (Realizes.skip c.here).congr fun s t => inOrder_nil_iff.symm
    | succ count ih =>
      have others : Emits p input hidden groups limit table _ _ _ _ := ⟨h.piece.times count, ih⟩
      exact ((h.seq others).congr fun s u => inOrder_cons_iff.symm).realizes

/-- A piece of code is added so that it may be left out. -/
theorem optional (h : Emits p input hidden groups limit table own loops body D) :
    Emits p input hidden groups limit table (none :: own) loops (Code.addOptional body)
      (fun s t => D s t ∨ s = t) where
  piece := h.piece.optional
  realizes := by
    intro c valid within
    obtain ⟨inner, split⟩ := h.piece.steady.optional_within within
    have run := h.realizes (c.openOptional own.length) (valid.add _) inner
    rw [← Code.addOptional_eq h.piece.steady, Code.here_openOptional] at run
    exact .optional split run

/-- A piece of code is added a number of times, and each of them may be left out. -/
theorem optionals (h : Emits p input hidden groups limit table own loops body (R e)) (count : ℕ) :
    Emits p input hidden groups limit table (List.replicate count (none :: own)).flatten
      (count * loops) (fun c => c.times (Code.addOptional body) count)
      (fun s t => ∃ extra ≤ count, InOrder R (List.replicate extra e) s t) where
  piece := h.piece.optional.times count
  realizes := by
    induction count with
    | zero =>
      intro c _ _
      refine (Realizes.skip c.here).congr fun s t => ?_
      constructor
      · rintro rfl
        exact ⟨0, le_rfl, .nil s⟩
      · rintro ⟨extra, le, run⟩
        rw [Nat.le_zero.1 le] at run
        cases run
        rfl
    | succ count ih =>
      have others : Emits p input hidden groups limit table _ _ _ _ :=
        ⟨h.piece.optional.times count, ih⟩
      refine ((h.optional.seq others).congr fun s u => ?_).realizes
      constructor
      · rintro ⟨t, first | rfl, extra, le, others⟩
        · exact ⟨extra + 1, Nat.succ_le_succ le, .cons first others⟩
        · exact ⟨extra, le.trans (Nat.le_succ count), others⟩
      · rintro ⟨extra, le, run⟩
        cases extra with
        | zero =>
          cases run
          exact ⟨_, Or.inr rfl, 0, Nat.zero_le _, .nil _⟩
        | succ extra =>
          cases run with
          | cons first others =>
            exact ⟨_, Or.inl first, extra, Nat.le_of_succ_le_succ le, others⟩

/-- A piece of code is added in a loop.  The slot of the loop lies behind those of all groups. -/
theorem loop (visible : ∀ n ∉ hidden, n ≤ limit) (known : ∀ n ∈ groups, n ≤ limit)
    (h : Emits p input hidden groups limit table own loops body (R e)) :
    Emits p input hidden groups limit table (none :: none :: (own ++ [none, none])) (loops + 1)
      (Code.addLoop body) (fun s t => ∃ extra, Advancing R (List.replicate extra e) s t) where
  piece := h.piece.loop
  realizes := by
    intro c valid within
    obtain ⟨inner, split, save, progress, jump⟩ := h.piece.steady.loop_within within
    have run := h.realizes _ (valid.openLoop own.length) inner
    have next : (c.openLoop own.length).nextSlot = c.nextSlot + 1 := Code.nextSlot_takeSlot valid
    rw [Code.here_openLoop, next] at run
    have room := valid.slots
    refine .loop split save run progress jump ?_ ?_ ?_
    · rintro (le | mem)
      · omega
      · have := known _ mem
        omega
    · intro n hn
      have := visible n hn
      omega
    · exact Set.insert_subset (Or.inl le_rfl) (writesFrom_subset subset_rfl (Nat.le_succ _))

/-- A piece of code is added as often as the bounds demand and allow. -/
theorem repeated (visible : ∀ n ∉ hidden, n ≤ limit) (known : ∀ n ∈ groups, n ≤ limit)
    (h : Emits p input hidden groups limit table own loops body (R e)) (bounds : Bounds) :
    Emits p input hidden groups limit table (bounds.owners own) (bounds.loopCount loops)
      (fun c => c.addRepeated bounds body) (bounds.Repeats R e) := by
  obtain ⟨least, most⟩ := bounds
  cases most with
  | none => exact (h.times least).seq (h.loop visible known)
  | some most => exact (h.times least).seq (h.optionals (most - least))

/-! ### Groups -/

/-- A piece of code is added between two instructions that keep where it begins and ends. -/
theorem capture {n : ℕ} (h : Emits p input (insert n hidden) groups limit table own loops body D)
    (le : n ≤ limit) (free : n ∈ hidden ∨ n ∉ groups) :
    Emits p input hidden (insert n groups) limit table (none :: (own ++ [none])) loops
      (Code.addCaptured n body)
      (fun s u => ∃ t, D s t ∧
        u = ⟨t.pos, Function.update t.captures n (some (input.extract s.pos t.pos))⟩) where
  piece := .capture le h.piece
  realizes := by
    intro c valid within
    obtain ⟨inner, start, stop, last⟩ := h.piece.steady.capture_within within
    have run := h.realizes (c.addSave (2 * n)) (valid.add _) inner
    rw [valid.modulus, Nat.mod_zero] at start stop
    rw [Code.here_addSave] at run
    rw [last]
    refine .capture start run stop ?_ ?_
    · refine free.imp_right fun free => ?_
      rintro (room | mem)
      · have slots := valid.slots
        have : c.nextSlot ≤ 2 * n := room
        omega
      · rw [Nat.mul_div_cancel_left n Nat.two_pos] at mem
        exact free mem
    · refine Set.insert_subset (Or.inr ?_) (Set.insert_subset (Or.inr ?_)
        (writesFrom_subset (Set.subset_insert n groups) le_rfl))
      · rw [Nat.mul_div_cancel_left n Nat.two_pos]
        exact Set.mem_insert n groups
      · rw [show (2 * n + 1) / 2 = n from by omega]
        exact Set.mem_insert n groups

end Emits

/-! ## Expressions -/

namespace Expr

/-- The numbers of the capturing groups of an expression. -/
def groupNumbers (e : Expr) : Set ℕ :=
  {n | e.HasGroup n}

/-- The groups of a part are groups of the whole. -/
theorem groupNumbers_subset {e f : Expr} (part : Part e f) :
    e.groupNumbers ⊆ f.groupNumbers :=
  fun _ h => h.of_part part

/-- Expressions one after the other, if the code of each does what it should. -/
theorem emitAll_emits {parts : List Expr}
    (each : ∀ e ∈ parts, Emits p input hidden groups limit table e.owners e.loopCount e.emit
      (Matches input e)) :
    Emits p input hidden groups limit table (ownersAll parts) (loopCountAll parts)
      (emitAll parts) (InOrder (Matches input) parts) := by
  induction parts with
  | nil => exact Emits.skip.congr fun s t => inOrder_nil_iff.symm
  | cons e es ih =>
    obtain ⟨first, others⟩ := List.forall_mem_cons.1 each
    exact (first.seq (ih others)).congr fun s u => inOrder_cons_iff.symm

/-- A choice of expressions, if the code of each does what it should and there is one. -/
theorem emitAny_emits {branches : List Expr} (ne : branches ≠ [])
    (each : ∀ e ∈ branches, Emits p input hidden groups limit table e.owners e.loopCount e.emit
      (Matches input e)) :
    Emits p input hidden groups limit table (ownersAny branches) (loopCountAll branches)
      (emitAny branches) (fun s t => ∃ e ∈ branches, Matches input e s t) := by
  induction branches with
  | nil => exact absurd rfl ne
  | cons e es ih =>
    have head := each e List.mem_cons_self
    have tail := fun e he => each e (List.mem_cons_of_mem _ he)
    cases es with
    | nil => exact head.congr fun s t => by simp
    | cons e' es =>
      exact (head.choice (ih (List.cons_ne_nil e' es) tail)).congr fun s t => by simp

/-- **The code of an expression realizes what the expression matches.** -/
theorem emits {e : Expr} (sees : e.Scoped hidden) (visible : ∀ n ∉ hidden, n ≤ limit)
    (fits : e.Fits limit table) (room : 2 * limit + 1 < p.slotCount) :
    Emits p input hidden e.groupNumbers limit table e.owners e.loopCount e.emit
      (Matches input e) := by
  induction e using Expr.unit_induct generalizing hidden with
  | text id chars => exact (Emits.chars chars).congr fun s t => matches_text_iff.symm
  | set id s => exact (Emits.set (fits.sets id s .refl)).congr fun t u => matches_set_iff.symm
  | concat id parts ih =>
    cases sees with
    | concat all =>
      refine (emitAll_emits fun e he => ?_).congr fun s t => matches_concat_iff.symm
      have part : Part e (concat id parts) := .concat he .refl
      exact (ih e he (all e he) visible (fits.of_part part)).mono (groupNumbers_subset part)
  | alternation id branches ih =>
    cases sees with
    | alternation ne all =>
      refine (emitAny_emits ne fun e he => ?_).congr fun s t => matches_alternation_iff.symm
      have part : Part e (alternation id branches) := .alternation he .refl
      exact (ih e he (all e he) visible (fits.of_part part)).mono (groupNumbers_subset part)
  | repetition id body bounds same ih =>
    cases sees with
    | repetition inner =>
      have part : Part body (repetition id body bounds same) := .repetition .refl
      have known : ∀ n ∈ body.unit.groupNumbers, n ≤ limit := fun n h =>
        fits.groups n (h.of_unit.of_part part)
      have sub :
          body.unit.groupNumbers ⊆ (repetition id body bounds same).groupNumbers := fun n h =>
        h.of_unit.of_part part
      have unit := ih inner.unit visible (fits.of_part part).unit
      have run := (Emits.chars body.lead).seq (unit.repeated visible known bounds)
      rw [owners_repetition, loopCount_repetition,
        funext fun c => emit_repetition id body bounds same c,
        ← Nat.zero_add (Bounds.loopCount _ _)]
      exact (run.mono sub).congr fun s t => matches_repetition_iff.symm
  | group id body capture ih =>
    have part : Part body (group id body capture) := .group .refl
    cases sees with
    | group inner =>
      have run := (ih inner visible (fits.of_part part)).mono (groupNumbers_subset part)
      exact run.congr fun s t => matches_group_iff.symm
    | @capture _ _ n _ inner own =>
      have le : n ≤ limit := fits.groups n ⟨id, body, .refl⟩
      have run := (ih inner (fun m hm => visible m fun mem => hm (Set.mem_insert_of_mem n mem))
        (fits.of_part part)).capture le own
      have self : n ∈ (group id body (some n)).groupNumbers := ⟨id, body, .refl⟩
      have sub := Set.insert_subset self (groupNumbers_subset part)
      exact (run.mono sub).congr fun s t => matches_capture_iff.symm
  | backref id target =>
    cases sees with
    | @backref _ _ gid n body visible' =>
      exact (Emits.backref (visible n visible') room visible').congr
        fun s t => matches_backref_iff.symm

end Expr

end PatternSampler
