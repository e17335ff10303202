/-
# Numbers of slots

Numbers of slots have 64 bits, and behind the last one they start again from zero.  It makes no
difference whether this is so in each step or whether the numbers are made narrow once at the end,
so what is said about programs with numbers of any size is carried over to the programs of trees:
all that is not about slots to all of them, the rest to those whose slots fit.

* `Inst.narrow`, `Code.narrow`, `Program.narrow` : the numbers of slots are made narrow.
* `Piece.narrow` : every piece commutes with that.
* `Tree.SlotsFit` : the slots of the program of a tree fit.
* `Tree.linked_program`, `Tree.keepsSets_program` : what holds of the program of every tree.
* `Tree.program_eq_wideProgram`, `Tree.wellFormed_program`, `Tree.slots_program` : what holds if its
  slots fit.
-/
import PatternSampler.Proofs.Program.WellFormed

namespace PatternSampler

variable {m : ℕ}

/-! ## Narrow numbers -/

/-- The slot that an instruction refers to starts again from zero at `m`. -/
def Inst.narrow (m : ℕ) : Inst → Inst
  | .save slot => .save (slot % m)
  | .progress slot => .progress (slot % m)
  | inst => inst

/-- An instruction that has no slot comes from the same one only. -/
theorem Inst.narrow_eq_iff {inst other : Inst}
    (slotless : ∀ slot, other ≠ .save slot ∧ other ≠ .progress slot) :
    inst.narrow m = other ↔ inst = other := by
  cases inst with
  | save slot =>
    exact iff_of_false (fun eq => (slotless _).1 eq.symm) fun eq => (slotless _).1 eq.symm
  | progress slot =>
    exact iff_of_false (fun eq => (slotless _).2 eq.symm) fun eq => (slotless _).2 eq.symm
  | _ => exact Iff.rfl

namespace Code

variable {c : Code}

/-- The numbers of slots in code are made narrow, and from now on they stay so. -/
def narrow (m : ℕ) (c : Code) : Code where
  insts := c.insts.map (Inst.narrow m)
  sets := c.sets
  nextSlot := c.nextSlot % m
  modulus := m

@[simp] theorem here_narrow (m : ℕ) (c : Code) : (c.narrow m).here = c.here :=
  Array.size_map

theorem narrow_add (inst : Inst) (c : Code) :
    (c.add inst).narrow m = (c.narrow m).add (inst.narrow m) := by
  simp only [narrow, add, Array.map_push]

/-- Wide numbers do not start again, so they may be made narrow when an instruction is added. -/
theorem narrow_addSave (zero : c.modulus = 0) (slot : ℕ) :
    (c.addSave slot).narrow m = (c.narrow m).addSave slot := by
  rw [addSave, zero, Nat.mod_zero, narrow_add]
  rfl

theorem narrow_addSet (id : ℕ) (s : CharSet) (c : Code) :
    (c.addSet id s).narrow m = (c.narrow m).addSet id s := by
  unfold addSet
  rw [show (c.narrow m).sets = c.sets from rfl]
  split
  · exact narrow_add _ c
  · simp only [narrow, Array.map_push, Inst.narrow]

/-- The first free slot may be made narrow before it is given out or afterwards. -/
theorem narrow_takeSlot (zero : c.modulus = 0) :
    c.takeSlot.narrow m = (c.narrow m).takeSlot := by
  have next : (c.nextSlot + 1) % m = (c.nextSlot % m + 1) % m := (Nat.mod_add_mod _ _ _).symm
  simp only [takeSlot, zero, Nat.mod_zero, narrow, next]

theorem narrow_openLoop (zero : c.modulus = 0) (length : ℕ) :
    (c.openLoop length).narrow m = (c.narrow m).openLoop length := by
  rw [openLoop, narrow_add, narrow_add, narrow_takeSlot zero, openLoop, here_narrow]
  rfl

end Code

/-- **It makes no difference when numbers of slots are made narrow**: before a piece is added or
afterwards. -/
theorem Piece.narrow {groups : Set ℕ} {table : ℕ → Option CharSet} {own : List (Option ℕ)}
    {loops : ℕ} {body : Code → Code} (h : Piece groups table own loops body) {c : Code}
    (zero : c.modulus = 0) : (body c).narrow m = body (c.narrow m) := by
  induction h generalizing c with
  | skip => rfl
  | char x => exact Code.narrow_add _ c
  | set => exact Code.narrow_addSet _ _ c
  | backref => exact Code.narrow_add _ c
  | seq part _ first second =>
    rw [second ((part.steady.modulus c).trans zero), first zero]
  | optional part ih =>
    have split (length : ℕ) : (c.openOptional length).modulus = 0 := zero
    rw [Code.addOptional_eq part.steady, Code.addOptional_eq part.steady, ih (split _),
      Code.openOptional, Code.narrow_add, Code.openOptional, Code.here_narrow]
    rfl
  | choice part part' first second =>
    have split (length : ℕ) : (c.openChoice length).modulus = 0 := zero
    have jump (inst : Inst) (length : ℕ) : Code.modulus (Code.add inst _) = 0 :=
      (part.steady.modulus (c.openChoice length)).trans (split length)
    rw [Code.addChoice_eq part.steady part'.steady, Code.addChoice_eq part.steady part'.steady,
      second (jump _ _), Code.narrow_add, first (split _), Code.openChoice, Code.narrow_add,
      Code.openChoice, Code.here_narrow]
    rfl
  | loop part ih =>
    have opened (length : ℕ) : (c.openLoop length).modulus = 0 := zero
    rw [Code.addLoop_eq part.steady, Code.addLoop_eq part.steady, Code.narrow_add,
      Code.narrow_add, ih (opened _), Code.narrow_openLoop zero, Code.here_narrow]
    rfl
  | capture _ part ih =>
    have begins (slot : ℕ) : (c.addSave slot).modulus = 0 := zero
    have inner (slot : ℕ) := (part.steady.modulus (c.addSave slot)).trans (begins slot)
    rw [Code.addCaptured, Code.narrow_addSave (inner _), ih (begins _), Code.narrow_addSave zero]
    rfl

/-! ## Narrow programs -/

namespace Program

variable {p : Program}

/-- The numbers of slots in a program are made narrow. -/
def narrow (m : ℕ) (p : Program) : Program :=
  { p with insts := p.insts.map (Inst.narrow m), slotCount := p.slotCount % m }

/-- Instructions without a slot stay the same. -/
theorem mem_narrow_iff {inst : Inst}
    (slotless : ∀ slot, inst ≠ .save slot ∧ inst ≠ .progress slot) :
    inst ∈ (p.narrow m).insts ↔ inst ∈ p.insts := by
  simp only [narrow, Array.mem_map, Inst.narrow_eq_iff slotless, exists_eq_right]

/-- Instructions without a slot stay where they are. -/
theorem getElem?_narrow_iff {k : ℕ} {inst : Inst}
    (slotless : ∀ slot, inst ≠ .save slot ∧ inst ≠ .progress slot) :
    (p.narrow m).insts[k]? = some inst ↔ p.insts[k]? = some inst := by
  simp only [narrow, Array.getElem?_map, Option.map_eq_some_iff, Inst.narrow_eq_iff slotless,
    exists_eq_right]

@[simp] theorem size_narrow : (p.narrow m).insts.size = p.insts.size :=
  Array.size_map

/-- Slots do not count for where instructions lead. -/
theorem Linked.narrow (h : p.Linked) : (p.narrow m).Linked where
  nop := by
    rw [mem_narrow_iff (by simp)]
    exact h.nop
  accept := by
    intro k
    rw [getElem?_narrow_iff (by simp), size_narrow]
    exact h.accept k
  jump := by
    intro target mem
    rw [mem_narrow_iff (by simp)] at mem
    rw [size_narrow]
    exact h.jump target mem
  split := by
    intro first second mem
    rw [mem_narrow_iff (by simp)] at mem
    rw [size_narrow]
    exact h.split first second mem
  set := by
    intro index mem
    rw [mem_narrow_iff (by simp)] at mem
    exact h.set index mem

/-- Slots do not count for the sets. -/
theorem KeepsSets.narrow {t : Tree} {owners : List (Option ℕ)} {nodes : List ℕ}
    (h : p.KeepsSets t owners nodes) : (p.narrow m).KeepsSets t owners nodes where
  nodup := h.nodup
  length := h.length
  sets := h.sets
  size := h.size.trans size_narrow.symm
  emitted := by
    intro k id
    have same (index : ℕ) : (p.narrow m).insts[k]? = some (.set index) ↔
        p.insts[k]? = some (.set index) := getElem?_narrow_iff (by simp)
    simp only [same]
    exact h.emitted k id

/-- Numbers that fit stay as they are. -/
theorem WellFormed.narrow_eq (well : p.WellFormed) (lt : p.slotCount < m) : p.narrow m = p := by
  have insts : p.insts.map (Inst.narrow m) = p.insts := by
    refine (Array.map_congr_left fun inst mem => ?_).trans (Array.map_id p.insts)
    cases inst with
    | save slot =>
      exact congrArg Inst.save (Nat.mod_eq_of_lt ((well.save slot mem).trans lt))
    | progress slot =>
      exact congrArg Inst.progress (Nat.mod_eq_of_lt ((well.progress slot mem).2.trans lt))
    | _ => rfl
  rw [Program.narrow, insts, Nat.mod_eq_of_lt lt]

end Program

/-! ## The programs of trees -/

namespace Tree

variable {t : Tree} {root : ℕ}

/-- The program of a tree is the one with numbers of slots of any size, made narrow. -/
theorem program_eq_narrow (ordered : t.Ordered) (root : ℕ) :
    t.program root = (t.wideProgram root).narrow (t.slotModulus root) := by
  have code : (t.rootCode root).narrow (t.slotModulus root) = _ :=
    (isPiece_expr ordered root).narrow rfl
  have start : Code.narrow (t.slotModulus root)
      { nextSlot := 2 * (t.captureCount + 1), modulus := 0 } =
        { nextSlot := 2 * (t.captureCount + 1) % t.slotModulus root
          modulus := t.slotModulus root } := by
    simp only [Code.narrow, List.map_toArray, List.map_nil]
  have whole : ((t.rootCode root).narrow (t.slotModulus root)).finish t.captureCount =
      (t.wideProgram root).narrow (t.slotModulus root) := by
    simp only [Code.finish, Code.narrow, wideProgram, Expr.wideProgram, rootCode, Program.narrow,
      Array.map_push, Inst.narrow]
  rw [program, Expr.program, ← start, ← code, whole]

/-- **The program of every tree is linked.** -/
theorem linked_program (ordered : t.Ordered) (root : ℕ) : (t.program root).Linked := by
  rw [program_eq_narrow ordered]
  exact (linked_wideProgram ordered root).narrow

/-- **The program of every tree keeps the sets of its set nodes.** -/
theorem keepsSets_program (ordered : t.Ordered) (root : ℕ) :
    (t.program root).KeepsSets t (t.expr root).owners (t.setNodes root) := by
  rw [program_eq_narrow ordered]
  exact (keepsSets_wideProgram ordered root).narrow

/-- The slots in the program of a tree fit: two for each group number and one for each loop, they
are fewer than there are numbers before these start again from zero. -/
def SlotsFit (t : Tree) (root : ℕ) : Prop :=
  2 * (t.captureCount + 1) + (t.expr root).loopCount < t.slotModulus root

instance (t : Tree) (root : ℕ) : Decidable (t.SlotsFit root) :=
  Nat.decLt _ _

/-- Slots fit if 64 bits can number them. -/
theorem slotsFit_of_lt (lt : 2 * (t.captureCount + 1) + (t.expr root).loopCount < 2 ^ 64) :
    t.SlotsFit root :=
  lt.trans_le (Nat.le_max_left _ _)

/-- Slots fit if no group has a number that is greater than the number of nodes. -/
theorem slotsFit_of_le (le : t.captureCount ≤ t.size) : t.SlotsFit root := by
  refine lt_of_lt_of_le ?_ (Nat.le_max_right _ _)
  omega

/-- A group with the greatest number whose slots 64 bits can still number, but not the count of all
slots. -/
def utmost : Tree :=
  { nodes := #[{ shape := .text ['a'] }, { shape := .group 0 none (some (2 ^ 63 - 1)) }] }

theorem ordered_utmost : utmost.Ordered := by
  intro id shape h
  have lt : id < 2 := lt_size_of_shape? h
  interval_cases id <;> cases h <;> decide

theorem insts_program_utmost : (utmost.program 1).insts =
    #[.save (2 ^ 64 - 2), .char 'a', .save (2 ^ 64 - 1), .accept] := by
  decide +kernel

theorem slotCount_program_utmost : (utmost.program 1).slotCount = 0 := by
  decide +kernel

example : ¬ utmost.SlotsFit 1 := by
  decide +kernel

/-- **Where the slots fit, their numbers never start again from zero.** -/
theorem program_eq_wideProgram (ordered : t.Ordered) (fit : t.SlotsFit root) :
    t.program root = t.wideProgram root := by
  rw [program_eq_narrow ordered]
  refine (wellFormed_wideProgram ordered root).narrow_eq ?_
  rw [(valid_rootCode ordered root).2]
  exact fit

/-- **The program of a tree whose slots fit is well formed.** -/
theorem wellFormed_program (ordered : t.Ordered) (fit : t.SlotsFit root) :
    (t.program root).WellFormed := by
  rw [program_eq_wideProgram ordered fit]
  exact wellFormed_wideProgram ordered root

/-- **The slots in the program of a tree** whose slots fit: a loop has one behind those of all
groups, and a position is kept only in a slot of a group of the tree or of a loop. -/
theorem slots_program (ordered : t.Ordered) (fit : t.SlotsFit root) (slot : ℕ) :
    (.progress slot ∈ (t.program root).insts →
      2 * ((t.program root).groupCount + 1) ≤ slot ∧ slot < (t.program root).slotCount) ∧
    (.save slot ∈ (t.program root).insts →
      (∃ g, t.capture? g = some (slot / 2)) ∨ .progress slot ∈ (t.program root).insts) := by
  rw [program_eq_wideProgram ordered fit]
  exact ⟨(wellFormed_wideProgram ordered root).progress slot, saves_wideProgram ordered⟩

end Tree

end PatternSampler
