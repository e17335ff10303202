/-
# The layout of code

Where the parts of a piece of code stand in a program that contains it, and what code under
construction satisfies as long as numbers of slots never start again from zero.

* `Code.Within` says that a program contains code under construction.
* `Steady.optional_within`, `Steady.choice_within`, `Steady.loop_within`, `Steady.capture_within` :
  a part and the instructions around it.
* `Code.Valid` is what all code under construction satisfies, `Piece.valid` that each piece
  preserves it.
-/
import PatternSampler.Proofs.Program.Pieces

namespace PatternSampler

variable {c : Code} {p : Program}

/-! ## Code within a program -/

/-- A program has all that is in code under construction at the same place. -/
structure Code.Within (c : Code) (p : Program) : Prop where
  insts : ∀ (k : ℕ) (inst : Inst), c.insts[k]? = some inst → p.insts[k]? = some inst
  sets : ∀ (k : ℕ) (entry : ℕ × CharSet), c.sets[k]? = some entry → p.sets[k]? = some entry.2

/-- A program that has some code has the code that was there before. -/
theorem Code.Within.of_extends {c c' : Code} (h : c'.Within p) (ext : c.Extends c') :
    c.Within p where
  insts := fun k inst look => h.insts k inst (ext.insts k inst look)
  sets := fun k entry look => h.sets k entry (ext.sets k entry look)

/-- The instruction that was added last. -/
theorem Code.Within.last {inst : Inst} (h : (c.add inst).Within p) :
    p.insts[c.here]? = some inst :=
  h.insts _ _ (c.getElem?_add inst)

/-- What is in front of the instruction that was added last. -/
theorem Code.Within.front {inst : Inst} (h : (c.add inst).Within p) : c.Within p :=
  h.of_extends ((Steady.add inst).ext c)

/-- A program contains the code that it is made of. -/
theorem Code.within_finish (groups : ℕ) (c : Code) : c.Within (c.finish groups) where
  insts := by
    intro k inst look
    obtain ⟨lt, -⟩ := Array.getElem?_eq_some_iff.1 look
    show (c.insts.push .accept)[k]? = some inst
    rw [Array.getElem?_push, if_neg (ne_of_lt lt), look]
  sets := by
    intro k entry look
    show (c.sets.map Prod.snd)[k]? = some entry.2
    rw [Array.getElem?_map, look]
    rfl

/-- Behind the code of a program stands the instruction that accepts. -/
theorem Code.accept_finish (groups : ℕ) (c : Code) :
    (c.finish groups).insts[c.here]? = some .accept :=
  Array.getElem?_push_size

@[simp] theorem Code.here_addChars (chars : List Char) (c : Code) :
    (c.addChars chars).here = c.here + chars.length := by
  rw [addChars, here, here, ← Array.length_toList, Array.toList_appendList, List.length_append,
    List.length_map, Array.length_toList]

theorem Code.getElem?_addChars (c : Code) (chars : List Char) {k : ℕ} {x : Char}
    (h : chars[k]? = some x) : (c.addChars chars).insts[c.here + k]? = some (.char x) := by
  rw [Code.addChars, Code.here, ← Array.getElem?_toList, Array.toList_appendList,
    ← Array.length_toList, List.getElem?_append_right (Nat.le_add_right _ _),
    Nat.add_sub_cancel_left, List.getElem?_map, h]
  rfl

namespace Steady

variable {length length₁ length₂ : ℕ} {body body₁ body₂ : Code → Code}

/-- What is in front of a part is in a program that contains the part. -/
theorem front_within (h : Steady length body) (within : (body c).Within p) : c.Within p :=
  within.of_extends (h.ext c)

/-- Where a part that may be left out stands in a program. -/
theorem optional_within (h : Steady length body) (within : (c.addOptional body).Within p) :
    (body (c.openOptional length)).Within p ∧
      p.insts[c.here]? = some (.split (c.here + 1) (c.addOptional body).here) := by
  rw [Code.addOptional_eq h] at within ⊢
  refine ⟨within, ?_⟩
  rw [h.here, Code.here_openOptional]
  exact (h.front_within within).last

/-- Where two parts to choose from stand in a program. -/
theorem choice_within (first : Steady length₁ body₁) (second : Steady length₂ body₂)
    (within : (c.addChoice body₁ body₂).Within p) :
    (body₁ (c.openChoice length₁)).Within p ∧
      p.insts[c.here]? = some (.split (c.here + 1) ((body₁ (c.openChoice length₁)).here + 1)) ∧
      p.insts[(body₁ (c.openChoice length₁)).here]? =
        some (.jump (c.addChoice body₁ body₂).here) ∧
      body₂ ((body₁ (c.openChoice length₁)).add (.jump (c.addChoice body₁ body₂).here)) =
        c.addChoice body₁ body₂ := by
  have stop : (c.addChoice body₁ body₂).here = c.here + 1 + length₁ + 1 + length₂ := by
    rw [(first.choice second).here]
    omega
  have whole := Code.addChoice_eq first second c
  rw [← stop] at whole
  have front := second.front_within (whole ▸ within)
  refine ⟨front.front, ?_, front.last, whole.symm⟩
  rw [first.here, Code.here_openChoice]
  exact (first.front_within front.front).last

/-- Where the body of a loop stands in a program. -/
theorem loop_within (h : Steady length body) (within : (c.addLoop body).Within p) :
    (body (c.openLoop length)).Within p ∧
      p.insts[c.here]? = some (.split (c.here + 1) (c.addLoop body).here) ∧
      p.insts[c.here + 1]? = some (.save c.nextSlot) ∧
      p.insts[(body (c.openLoop length)).here]? = some (.progress c.nextSlot) ∧
      p.insts[(body (c.openLoop length)).here + 1]? = some (.jump c.here) := by
  have stop : (c.addLoop body).here = c.here + 2 + length + 2 := by
    rw [h.loop.here]
    omega
  rw [stop]
  rw [Code.addLoop_eq h] at within
  have opened := h.front_within within.front.front
  refine ⟨within.front.front, opened.front.last, ?_, within.front.last, ?_⟩
  · have save := opened.last
    rwa [Code.here_add, Code.here_takeSlot] at save
  · have jump := within.last
    rwa [Code.here_add] at jump

/-- Where a captured part stands in a program. -/
theorem capture_within (h : Steady length body) {n : ℕ}
    (within : (c.addCaptured n body).Within p) :
    (body (c.addSave (2 * n))).Within p ∧
      p.insts[c.here]? = some (.save (2 * n % c.modulus)) ∧
      p.insts[(body (c.addSave (2 * n))).here]? = some (.save ((2 * n + 1) % c.modulus)) ∧
      (c.addCaptured n body).here = (body (c.addSave (2 * n))).here + 1 := by
  have stop := within.last
  rw [h.modulus] at stop
  exact ⟨within.front, (h.front_within within.front).last, stop, Code.here_add _ _⟩

end Steady

/-! ## Code under construction -/

variable {base : ℕ} {table : ℕ → Option CharSet}

/-- Numbers of slots never start again from zero, and loops have those from `base` on.  Every set is
the one of its node, and each node has one. -/
structure Code.Valid (base : ℕ) (table : ℕ → Option CharSet) (c : Code) : Prop where
  modulus : c.modulus = 0
  slots : base ≤ c.nextSlot
  sets : ∀ entry ∈ c.sets, table entry.1 = some entry.2
  nodes : (c.sets.toList.map Prod.fst).Nodup

namespace Code

theorem Valid.add (valid : c.Valid base table) (inst : Inst) : (c.add inst).Valid base table :=
  ⟨valid.modulus, valid.slots, valid.sets, valid.nodes⟩

/-- Wide numbers do not start again. -/
theorem nextSlot_takeSlot (valid : c.Valid base table) : c.takeSlot.nextSlot = c.nextSlot + 1 := by
  rw [takeSlot, valid.modulus]
  exact Nat.mod_zero _

theorem Valid.takeSlot (valid : c.Valid base table) : c.takeSlot.Valid base table where
  modulus := valid.modulus
  slots := by
    rw [nextSlot_takeSlot valid]
    exact valid.slots.trans (Nat.le_succ _)
  sets := valid.sets
  nodes := valid.nodes

theorem Valid.openLoop (valid : c.Valid base table) (length : ℕ) :
    (c.openLoop length).Valid base table :=
  (valid.takeSlot.add _).add _

/-- An instruction for a set is added, whichever its number is. -/
theorem exists_addSet (id : ℕ) (s : CharSet) (c : Code) :
    (c.addSet id s).nextSlot = c.nextSlot ∧
      ∃ index, (c.addSet id s).insts = c.insts.push (.set index) := by
  unfold Code.addSet
  split
  · next index _ => exact ⟨rfl, index, rfl⟩
  · exact ⟨rfl, c.sets.size, rfl⟩

/-- The set of a node is found where it was put first. -/
theorem exists_addSet_eq (valid : c.Valid base table) {id : ℕ} {s : CharSet}
    (own : table id = some s) : ∃ index, (c.addSet id s).insts = c.insts.push (.set index) ∧
      (c.addSet id s).sets[index]? = some (id, s) := by
  unfold Code.addSet
  split
  · next index found =>
    refine ⟨index, rfl, ?_⟩
    obtain ⟨lt, is, -⟩ := Array.findIdx?_eq_some_iff_getElem.1 found
    have mem := valid.sets _ (Array.getElem_mem lt)
    rw [beq_iff_eq] at is
    rw [is, own, Option.some.injEq] at mem
    show c.sets[index]? = some (id, s)
    rw [Array.getElem?_eq_getElem lt, Option.some.injEq, Prod.ext_iff]
    exact ⟨is, mem.symm⟩
  · exact ⟨c.sets.size, rfl, Array.getElem?_push_size⟩

/-- A set is kept under its node, once. -/
theorem Valid.addSet (valid : c.Valid base table) {id : ℕ} {s : CharSet}
    (own : table id = some s) : (c.addSet id s).Valid base table := by
  unfold Code.addSet
  split
  · exact valid.add _
  · next none =>
    rw [Array.findIdx?_eq_none_iff] at none
    refine ⟨valid.modulus, valid.slots, fun entry mem => ?_, ?_⟩
    · rcases Array.mem_push.1 mem with mem | rfl
      · exact valid.sets entry mem
      · exact own
    · rw [Array.toList_push, List.map_append, List.nodup_append]
      refine ⟨valid.nodes, List.nodup_singleton _, ?_⟩
      rintro place mem _ mem' rfl
      obtain ⟨entry, at_entry, rfl⟩ := List.mem_map.1 mem
      have other := none entry (Array.mem_toList_iff.1 at_entry)
      rw [List.mem_singleton.1 mem', beq_self_eq_true] at other
      cases other

end Code

/-- **Every piece preserves validity** and gives out a slot for each of its loops. -/
theorem Piece.valid {groups : Set ℕ} {own : List (Option ℕ)} {loops : ℕ} {body : Code → Code}
    (h : Piece groups table own loops body) (valid : c.Valid base table) :
    (body c).Valid base table ∧ (body c).nextSlot = c.nextSlot + loops := by
  induction h generalizing c with
  | skip => exact ⟨valid, rfl⟩
  | char x => exact ⟨valid.add _, rfl⟩
  | set own => exact ⟨valid.addSet own, (Code.exists_addSet _ _ c).1⟩
  | backref => exact ⟨valid.add _, rfl⟩
  | seq _ _ first second =>
    obtain ⟨inner, slots⟩ := first valid
    obtain ⟨outer, slots'⟩ := second inner
    exact ⟨outer, by rw [slots', slots, Nat.add_assoc]⟩
  | optional part ih =>
    rw [Code.addOptional_eq part.steady]
    exact ih (valid.add _)
  | choice part part' first second =>
    rw [Code.addChoice_eq part.steady part'.steady]
    obtain ⟨inner, slots⟩ := first (valid.add _)
    obtain ⟨outer, slots'⟩ := second (inner.add _)
    exact ⟨outer, (slots'.trans (congrArg (· + _) slots)).trans (Nat.add_assoc _ _ _)⟩
  | loop part ih =>
    rw [Code.addLoop_eq part.steady]
    obtain ⟨inner, slots⟩ := ih (valid.openLoop _)
    have taken := slots.trans (congrArg (· + _) (Code.nextSlot_takeSlot valid))
    exact ⟨(inner.add _).add _, taken.trans (by omega)⟩
  | capture _ _ ih =>
    obtain ⟨inner, slots⟩ := ih (valid.add _)
    exact ⟨inner.add _, slots⟩

end PatternSampler
