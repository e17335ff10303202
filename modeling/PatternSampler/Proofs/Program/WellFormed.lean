/-
# Well-formed programs

Whatever a tree looks like, as long as references lead to earlier nodes, nothing in its program
leads out of the program: every instruction goes on at an instruction and reads a character of a set
that there is, the one of the node that it was emitted for.  If numbers of slots do not start again
from zero, then it also uses slots that there are: a group those of its number, a loop one behind
those of all groups.

* `Grows` : what is added to code, `Piece.grows` what each piece adds.
* `Program.Linked`, `Program.WellFormed`, `Program.KeepsSets` : what holds of a program.
* `Expr.wideProgram`, `Tree.wideProgram` : programs with numbers of slots of any size.
* `Tree.wellFormed_wideProgram`, `Tree.keepsSets_wideProgram` : what holds of it.
-/
import PatternSampler.Proofs.Program.Copies
import PatternSampler.Proofs.Program.Layout

namespace PatternSampler

/-! ## What is added to code -/

/-- How an instruction may refer to the code `c` that it stands in and to places up to `stop`;
`owner` is the set node that it is emitted for.  Loops have the slots from `base` on. -/
def Inst.Refers (groups : Set ℕ) (base stop : ℕ) (c : Code) : Inst → (owner : Option ℕ) → Prop
  | .char _, none => True
  | .set index, some id => ∃ s, c.sets[index]? = some (id, s)
  | .jump target, none => target ≤ stop
  | .split first second, none => first ≤ stop ∧ second ≤ stop
  | .save slot, none => slot / 2 ∈ groups ∨ base ≤ slot ∧ slot < c.nextSlot
  | .progress slot, none => base ≤ slot ∧ slot < c.nextSlot
  | .backref group, none => group ∈ groups
  | _, _ => False

/-- One for the slots that were given out between two states of code. -/
def Code.taken (c c' : Code) (slot : ℕ) : ℕ :=
  if c.nextSlot ≤ slot ∧ slot < c'.nextSlot then 1 else 0

/-- Code grows by instructions with these owners, which refer to no place behind `stop`.  Each slot
that is given out is saved to once and compared once; apart from these only slots of groups are
saved to, which lie in front of `base`. -/
structure Grows (groups : Set ℕ) (base stop : ℕ) (own : List (Option ℕ)) (c c' : Code) : Prop where
  sets : ∀ (k : ℕ) (entry : ℕ × CharSet), c.sets[k]? = some entry → c'.sets[k]? = some entry
  slots : c.nextSlot ≤ c'.nextSlot
  insts : ∃ added : List Inst, c'.insts.toList = c.insts.toList ++ added ∧
    List.Forall₂ (Inst.Refers groups base stop c') added own ∧
    ∀ slot, added.count (.progress slot) = c.taken c' slot ∧
      (base ≤ slot → added.count (.save slot) = c.taken c' slot)

section

variable {groups : Set ℕ} {base stop stop' : ℕ} {own own' : List (Option ℕ)} {c c' c'' : Code}
  {table : ℕ → Option CharSet}

/-- An instruction still refers to what there is when more has been added. -/
theorem Inst.Refers.mono {inst : Inst} {owner : Option ℕ}
    (h : inst.Refers groups base stop c owner)
    (sets : ∀ (k : ℕ) (entry : ℕ × CharSet), c.sets[k]? = some entry → c'.sets[k]? = some entry)
    (slots : c.nextSlot ≤ c'.nextSlot) (le : stop ≤ stop') :
    inst.Refers groups base stop' c' owner := by
  cases inst <;> cases owner <;> simp only [Inst.Refers] at h ⊢
  case set.some =>
    obtain ⟨s, look⟩ := h
    exact ⟨s, sets _ _ look⟩
  case save.none => exact h.imp_right fun own => ⟨own.1, own.2.trans_le slots⟩
  case backref.none => exact h
  all_goals omega

theorem Code.taken_eq_zero (same : c'.nextSlot = c.nextSlot) (slot : ℕ) : c.taken c' slot = 0 := by
  apply if_neg
  omega

namespace Grows

theorem refl (c : Code) : Grows groups base stop [] c c where
  sets := fun _ _ look => look
  slots := le_rfl
  insts := by
    refine ⟨[], (List.append_nil _).symm, .nil, fun slot => ?_⟩
    rw [Code.taken_eq_zero rfl]
    exact ⟨rfl, fun _ => rfl⟩

theorem cast (h : Grows groups base stop own c c') (same : own = own') :
    Grows groups base stop own' c c' :=
  same ▸ h

theorem mono (h : Grows groups base stop own c c') (le : stop ≤ stop') :
    Grows groups base stop' own c c' where
  sets := h.sets
  slots := h.slots
  insts := by
    obtain ⟨added, eq, refers, counts⟩ := h.insts
    exact ⟨added, eq, refers.imp fun _ _ h => h.mono (fun _ _ look => look) le_rfl le, counts⟩

/-- Code that grows twice has the instructions of both pieces. -/
theorem trans (first : Grows groups base stop own c c')
    (second : Grows groups base stop own' c' c'') :
    Grows groups base stop (own ++ own') c c'' where
  sets := fun k entry look => second.sets k entry (first.sets k entry look)
  slots := first.slots.trans second.slots
  insts := by
    obtain ⟨added, eq, refers, counts⟩ := first.insts
    obtain ⟨added', eq', refers', counts'⟩ := second.insts
    have le := first.slots
    have le' := second.slots
    have sum (slot : ℕ) : c.taken c'' slot = c.taken c' slot + c'.taken c'' slot := by
      unfold Code.taken
      split_ifs <;> omega
    refine ⟨added ++ added', ?_, ?_, fun slot => ⟨?_, fun free => ?_⟩⟩
    · rw [eq', eq, List.append_assoc]
    · exact List.rel_append (refers.imp fun _ _ h => h.mono second.sets le' le_rfl) refers'
    · rw [List.count_append, (counts slot).1, (counts' slot).1, sum]
    · rw [List.count_append, (counts slot).2 free, (counts' slot).2 free, sum]

/-- An instruction is added that belongs neither to a set nor to a loop. -/
theorem add {inst : Inst} (refers : inst.Refers groups base stop c none)
    (progress : ∀ slot, inst ≠ .progress slot) (save : ∀ slot, inst = .save slot → slot < base) :
    Grows groups base stop [none] c (c.add inst) where
  sets := fun _ _ look => look
  slots := le_rfl
  insts := by
    refine ⟨[inst], Array.toList_push, .cons refers .nil, fun slot => ?_⟩
    have none : c.taken (c.add inst) slot = 0 := Code.taken_eq_zero rfl slot
    rw [none, List.count_eq_zero, List.count_eq_zero]
    refine ⟨fun mem => progress slot (List.mem_singleton.1 mem).symm, fun free mem => ?_⟩
    have := save slot (List.mem_singleton.1 mem).symm
    omega

/-- The position is kept in a slot of a group. -/
theorem addSave (valid : c.Valid base table) {slot : ℕ} (mem : slot / 2 ∈ groups)
    (lt : slot < base) : Grows groups base stop [none] c (c.addSave slot) := by
  rw [Code.addSave, valid.modulus, Nat.mod_zero]
  refine add (.inl mem) (by simp) ?_
  rintro _ ⟨⟩
  exact lt

/-- The set of a node is added. -/
theorem addSet (valid : c.Valid base table) {id : ℕ} {s : CharSet} (known : table id = some s) :
    Grows groups base stop [some id] c (c.addSet id s) where
  sets := (Steady.addSet id s).sets c
  slots := (Code.exists_addSet id s c).1.ge
  insts := by
    obtain ⟨index, added, entry⟩ := Code.exists_addSet_eq valid known
    refine ⟨[.set index], ?_, .cons ⟨s, entry⟩ .nil, fun slot => ?_⟩
    · rw [added, Array.toList_push]
    · rw [Code.taken_eq_zero (Code.exists_addSet id s c).1]
      exact ⟨rfl, fun _ => rfl⟩

/-- **Code is added in a loop**, which saves to the first free slot and compares it. -/
theorem loop {length : ℕ} {body : Code → Code} (valid : c.Valid base table)
    (steady : Steady length body) (len : own.length = length)
    (inner : Grows groups base (c.here + 2 + length) own (c.openLoop length)
      (body (c.openLoop length))) :
    Grows groups base (c.here + 2 + length + 2) (none :: none :: (own ++ [none, none])) c
      (c.addLoop body) := by
  rw [Code.addLoop_eq steady]
  obtain ⟨added, eq, refers, counts⟩ := inner.insts
  have next : (c.openLoop length).nextSlot = c.nextSlot + 1 := Code.nextSlot_takeSlot valid
  have room := inner.slots
  rw [next] at room
  generalize last : body (c.openLoop length) = d at *
  -- the slot of the loop, and those that its body takes
  have count (slot : ℕ) : c.taken ((d.add (.progress c.nextSlot)).add (.jump c.here)) slot =
      (c.openLoop length).taken d slot + if c.nextSlot = slot then 1 else 0 := by
    have same : ((d.add (.progress c.nextSlot)).add (.jump c.here)).nextSlot = d.nextSlot := rfl
    unfold Code.taken
    rw [same, next]
    split_ifs <;> omega
  have fresh : base ≤ c.nextSlot ∧ c.nextSlot < d.nextSlot := ⟨valid.slots, room⟩
  refine ⟨inner.sets, (Nat.le_succ _).trans room, .split (c.here + 1) (c.here + 2 + length + 2) ::
    .save c.nextSlot :: (added ++ [.progress c.nextSlot, .jump c.here]), ?_, ?_,
    fun slot => ⟨?_, fun free => ?_⟩⟩
  · show ((d.insts.push _).push _).toList = _
    rw [Array.toList_push, Array.toList_push, eq]
    simp [Code.openLoop, Code.add, Code.takeSlot]
  · refine .cons ⟨by omega, le_rfl⟩ (.cons (.inr fresh) (List.rel_append ?_ ?_))
    · exact refers.imp fun _ _ h => h.mono (fun _ _ look => look) le_rfl (by omega)
    · exact .cons fresh (.cons (show _ ≤ _ by omega) .nil)
  · rw [count, ← (counts slot).1]
    simp [List.count_cons]
  · rw [count, ← (counts slot).2 free]
    simp [List.count_cons]

end Grows

/-- **What a piece adds** is what its owners say, and it refers to nothing behind it. -/
theorem Piece.grows {loops : ℕ} {body : Code → Code} (h : Piece groups table own loops body)
    (front : ∀ n ∈ groups, 2 * n + 1 < base) (valid : c.Valid base table) :
    Grows groups base (c.here + own.length) own c (body c) := by
  induction h generalizing c with
  | skip => exact .refl c
  | char x => exact .add trivial (by simp) (by simp)
  | set known => exact .addSet valid known
  | backref mem => exact .add mem (by simp) (by simp)
  | seq part _ first second =>
    have left := first valid
    have right := second (part.valid valid).1
    rw [part.steady.here] at right
    rw [List.length_append]
    exact (left.mono (by omega)).trans (right.mono (by omega))
  | @optional own _ _ part ih =>
    rw [Code.addOptional_eq part.steady, List.length_cons]
    have split : Grows groups base (c.here + (own.length + 1)) [none] c
        (c.openOptional own.length) := .add ⟨by omega, by omega⟩ (by simp) (by simp)
    have inner := ih (c := c.openOptional own.length) (valid.add _)
    rw [Code.here_openOptional] at inner
    exact split.trans (inner.mono (by omega))
  | @choice own own' _ _ body body' part part' first second =>
    rw [Code.addChoice_eq part.steady part'.steady]
    have length : (none :: (own ++ none :: own')).length = own.length + own'.length + 2 := by
      simp only [List.length_cons, List.length_append]
      omega
    rw [length]
    have split : Grows groups base (c.here + (own.length + own'.length + 2)) [none] c
        (c.openChoice own.length) := .add ⟨by omega, by omega⟩ (by simp) (by simp)
    have start : (c.openChoice own.length).Valid base table := valid.add _
    have left := first start
    have jump : Grows groups base (c.here + (own.length + own'.length + 2)) [none]
        (body (c.openChoice own.length))
        (Code.add (.jump (c.here + 1 + own.length + 1 + own'.length)) _) :=
      .add (show _ ≤ _ by omega) (by simp) (by simp)
    have right := second
      ((part.valid start).1.add (.jump (c.here + 1 + own.length + 1 + own'.length)))
    rw [Code.here_openChoice] at left
    rw [Code.here_add, part.steady.here, Code.here_openChoice] at right
    exact ((split.trans (left.mono (by omega))).trans (jump.trans (right.mono (by omega)))).cast
      (by simp)
  | @loop own _ _ part ih =>
    have inner := ih (valid.openLoop own.length)
    rw [Code.here_openLoop] at inner
    refine (Grows.loop valid part.steady rfl inner).mono ?_
    simp only [List.length_cons, List.length_append, List.length_nil]
    omega
  | @capture n own _ body mem part ih =>
    have lt := front n mem
    have length : (none :: (own ++ [none])).length = own.length + 2 := by simp
    rw [length]
    -- the slots of a group lie in front of those of all loops
    have begins : Grows groups base (c.here + (own.length + 2)) [none] c (c.addSave (2 * n)) :=
      .addSave valid (by rwa [show 2 * n / 2 = n from by omega]) (by omega)
    have opened : (c.addSave (2 * n)).Valid base table := valid.add _
    have inner := ih opened
    rw [Code.here_addSave] at inner
    have stops : Grows groups base (c.here + (own.length + 2)) [none] (body (c.addSave (2 * n)))
        (c.addCaptured n body) :=
      .addSave (part.valid opened).1 (by rwa [show (2 * n + 1) / 2 = n from by omega]) lt
    exact (begins.trans (inner.mono (by omega))).trans stops

end

/-! ## Programs -/

namespace Program

/-- **Nothing in a program leads out of it**: only the last instruction accepts and there is no
placeholder, instructions go on at instructions and read characters of sets that there are. -/
structure Linked (p : Program) : Prop where
  nop : .nop ∉ p.insts
  accept : ∀ k, p.insts[k]? = some .accept ↔ k + 1 = p.insts.size
  jump : ∀ target, .jump target ∈ p.insts → target < p.insts.size
  split : ∀ first second, .split first second ∈ p.insts →
    first < p.insts.size ∧ second < p.insts.size
  set : ∀ index, .set index ∈ p.insts → index < p.sets.size

/-- The instructions of a program use slots that there are, too.  The slots behind those of the
groups are those of the loops: each is saved to by exactly one instruction and compared by exactly
one. -/
structure WellFormed (p : Program) : Prop extends Linked p where
  save : ∀ slot, .save slot ∈ p.insts → slot < p.slotCount
  progress : ∀ slot, .progress slot ∈ p.insts →
    2 * (p.groupCount + 1) ≤ slot ∧ slot < p.slotCount
  backref : ∀ group, .backref group ∈ p.insts →
    2 * group < p.slotCount ∧ 2 * group + 1 < p.slotCount
  loop : ∀ slot, 2 * (p.groupCount + 1) ≤ slot → slot < p.slotCount →
    p.insts.count (.save slot) = 1 ∧ p.insts.count (.progress slot) = 1

/-- All that the instructions of a well-formed program refer to is there. -/
theorem WellFormed.inRange {p : Program} (well : p.WellFormed) : p.InRange := by
  intro inst mem
  cases inst with
  | set index => exact well.set index mem
  | save slot => exact well.save slot mem
  | progress slot => exact (well.progress slot mem).2
  | backref group => exact (well.backref group mem).2
  | _ => trivial

/-- The sets of a program are those of different set nodes of a tree, `nodes`, and an instruction
that is emitted for a set node, as said by `owners`, and no other one, refers to the set of that
node. -/
structure KeepsSets (p : Program) (t : Tree) (owners : List (Option ℕ)) (nodes : List ℕ) :
    Prop where
  nodup : nodes.Nodup
  length : nodes.length = p.sets.size
  sets : ∀ index id : ℕ, nodes[index]? = some id →
    ∃ s, t.shape? id = some (.set s) ∧ p.sets[index]? = some s
  size : owners.length + 1 = p.insts.size
  emitted : ∀ k id : ℕ, owners[k]? = some (some id) ↔
    ∃ index, p.insts[k]? = some (.set index) ∧ nodes[index]? = some id

end Program

/-- The code of a whole expression whose groups have numbers up to `groups`, with numbers of slots
of any size. -/
def Expr.wideCode (e : Expr) (groups : ℕ) : Code :=
  e.emit { nextSlot := 2 * (groups + 1), modulus := 0 }

/-- The program of an expression with numbers of slots of any size. -/
def Expr.wideProgram (e : Expr) (groups : ℕ) : Program :=
  (e.wideCode groups).finish groups

namespace Tree

variable {t : Tree}

/-- The code of a whole pattern with numbers of slots of any size. -/
def rootCode (t : Tree) (root : ℕ) : Code :=
  (t.expr root).wideCode t.captureCount

/-- The program of a pattern with numbers of slots of any size. -/
def wideProgram (t : Tree) (root : ℕ) : Program :=
  (t.expr root).wideProgram t.captureCount

/-- Before anything was added there is nothing that could be wrong. -/
theorem valid_empty (t : Tree) : Code.Valid (2 * (t.captureCount + 1)) t.set?
    { nextSlot := 2 * (t.captureCount + 1), modulus := 0 } where
  modulus := rfl
  slots := le_rfl
  sets := by simp
  nodes := List.nodup_nil

/-- The code of a tree takes two slots for each group number and one for each loop. -/
theorem valid_rootCode (ordered : t.Ordered) (root : ℕ) :
    (t.rootCode root).Valid (2 * (t.captureCount + 1)) t.set? ∧
      (t.wideProgram root).slotCount = 2 * (t.captureCount + 1) + (t.expr root).loopCount :=
  (isPiece_expr ordered root).valid t.valid_empty

/-- The root has one instruction for each owner, and one more accepts. -/
theorem size_wideProgram (ordered : t.Ordered) (root : ℕ) :
    (t.wideProgram root).insts.size = (t.rootCode root).here + 1 ∧
      (t.expr root).owners.length = (t.rootCode root).here := by
  refine ⟨Array.size_push _, ?_⟩
  rw [rootCode, Expr.wideCode, (isPiece_expr ordered root).steady.here]
  exact (Nat.zero_add _).symm

/-- What is added to no code at all is the code of the root. -/
theorem grows_rootCode (ordered : t.Ordered) (root : ℕ) :
    Grows t.captures (2 * (t.captureCount + 1)) (t.rootCode root).here (t.expr root).owners
      { nextSlot := 2 * (t.captureCount + 1), modulus := 0 } (t.rootCode root) := by
  have piece := isPiece_expr ordered root
  rw [rootCode, Expr.wideCode, piece.steady.here]
  refine piece.grows (fun n mem => ?_) t.valid_empty
  have := le_captureCount_of_mem mem
  omega

/-- **Every instruction but the last one refers to what there is.** -/
theorem refers_wideProgram (ordered : t.Ordered) {root k : ℕ} {inst : Inst}
    (look : (t.wideProgram root).insts[k]? = some inst) :
    (k = (t.rootCode root).here ∧ inst = .accept) ∨
      ∃ owner, (t.expr root).owners[k]? = some owner ∧
        inst.Refers t.captures (2 * (t.captureCount + 1)) (t.rootCode root).here (t.rootCode root)
          owner := by
  obtain ⟨added, eq, refers, -⟩ := (grows_rootCode ordered root).insts
  replace eq : (t.rootCode root).insts.toList = added := eq
  replace look : ((t.rootCode root).insts.push .accept)[k]? = some inst := look
  rw [Array.getElem?_push] at look
  split at look
  · next last =>
    cases look
    exact .inl ⟨last, rfl⟩
  · right
    rw [← Array.getElem?_toList, eq] at look
    obtain ⟨lt, rfl⟩ := List.getElem?_eq_some_iff.1 look
    have lt' : k < (t.expr root).owners.length := refers.length_eq ▸ lt
    exact ⟨_, List.getElem?_eq_getElem lt', refers.get lt lt'⟩

/-- Each slot of a loop is saved to by one instruction and compared by one. -/
theorem count_wideProgram (ordered : t.Ordered) {root slot : ℕ}
    (free : 2 * (t.captureCount + 1) ≤ slot) (lt : slot < (t.wideProgram root).slotCount) :
    (t.wideProgram root).insts.count (.save slot) = 1 ∧
      (t.wideProgram root).insts.count (.progress slot) = 1 := by
  obtain ⟨added, eq, -, counts⟩ := (grows_rootCode ordered root).insts
  have one : Code.taken { nextSlot := 2 * (t.captureCount + 1), modulus := 0 } (t.rootCode root)
      slot = 1 := if_pos ⟨free, lt⟩
  have split : (t.wideProgram root).insts.toList = added ++ [.accept] := by
    show ((t.rootCode root).insts.push .accept).toList = _
    rw [Array.toList_push]
    exact congrArg (· ++ [Inst.accept]) eq
  obtain ⟨progress, save⟩ := counts slot
  constructor
  · rw [← Array.count_toList, split, List.count_append, save free]
    exact one
  · rw [← Array.count_toList, split, List.count_append, progress]
    exact one

/-- An instruction that does not accept refers to what there is. -/
theorem exists_refers_wideProgram (ordered : t.Ordered) {root : ℕ} {inst : Inst}
    (mem : inst ∈ (t.wideProgram root).insts) (other : inst ≠ .accept) :
    ∃ owner, inst.Refers t.captures (2 * (t.captureCount + 1)) (t.rootCode root).here
      (t.rootCode root) owner := by
  obtain ⟨k, look⟩ := Array.mem_iff_getElem?.1 mem
  rcases refers_wideProgram ordered look with ⟨-, last⟩ | ⟨owner, -, refers⟩
  · exact absurd last other
  · exact ⟨owner, refers⟩

/-- A program with numbers of slots of any size is linked. -/
theorem linked_wideProgram (ordered : t.Ordered) (root : ℕ) : (t.wideProgram root).Linked := by
  obtain ⟨size, -⟩ := size_wideProgram ordered root
  constructor
  · intro mem
    obtain ⟨owner, refers⟩ := exists_refers_wideProgram ordered mem (by simp)
    cases owner <;> exact refers
  · intro k
    constructor
    · intro look
      rcases refers_wideProgram ordered look with ⟨rfl, -⟩ | ⟨owner, -, refers⟩
      · exact size.symm
      · cases owner <;> exact absurd refers id
    · intro last
      obtain rfl : k = (t.rootCode root).here := by omega
      exact Code.accept_finish _ _
  · intro target mem
    obtain ⟨_ | owner, refers⟩ := exists_refers_wideProgram ordered mem (by simp)
    · exact size ▸ Nat.lt_succ_of_le refers
    · exact absurd refers id
  · intro first second mem
    obtain ⟨_ | owner, refers⟩ := exists_refers_wideProgram ordered mem (by simp)
    · exact size ▸ ⟨Nat.lt_succ_of_le refers.1, Nat.lt_succ_of_le refers.2⟩
    · exact absurd refers id
  · intro index mem
    obtain ⟨_ | owner, refers⟩ := exists_refers_wideProgram ordered mem (by simp)
    · exact absurd refers id
    · obtain ⟨s, look⟩ := refers
      show index < ((t.rootCode root).sets.map Prod.snd).size
      rw [Array.size_map]
      exact (Array.getElem?_eq_some_iff.1 look).1

/-- **A program with numbers of slots of any size is well formed.** -/
theorem wellFormed_wideProgram (ordered : t.Ordered) (root : ℕ) :
    (t.wideProgram root).WellFormed where
  toLinked := linked_wideProgram ordered root
  save := by
    intro slot mem
    have room : 2 * (t.captureCount + 1) ≤ (t.wideProgram root).slotCount :=
      (valid_rootCode ordered root).1.slots
    obtain ⟨_ | owner, refers⟩ := exists_refers_wideProgram ordered mem (by simp)
    · rcases refers with group | own
      · have := le_captureCount_of_mem group
        omega
      · exact own.2
    · exact absurd refers id
  progress := by
    intro slot mem
    obtain ⟨_ | owner, refers⟩ := exists_refers_wideProgram ordered mem (by simp)
    · exact refers
    · exact absurd refers id
  backref := by
    intro group mem
    have room : 2 * (t.captureCount + 1) ≤ (t.wideProgram root).slotCount :=
      (valid_rootCode ordered root).1.slots
    obtain ⟨_ | owner, refers⟩ := exists_refers_wideProgram ordered mem (by simp)
    · have := le_captureCount_of_mem refers
      omega
    · exact absurd refers id
  loop := fun _ free lt => count_wideProgram ordered free lt

/-- A position is kept only in a slot of a group of the tree or in one that a loop compares. -/
theorem saves_wideProgram (ordered : t.Ordered) {root slot : ℕ}
    (mem : .save slot ∈ (t.wideProgram root).insts) :
    slot / 2 ∈ t.captures ∨ .progress slot ∈ (t.wideProgram root).insts := by
  obtain ⟨_ | owner, refers⟩ := exists_refers_wideProgram ordered mem (by simp)
  · refine refers.imp_right fun own => ?_
    have once := (count_wideProgram ordered own.1 own.2).2
    exact Array.count_pos_iff.1 (once ▸ Nat.one_pos)
  · exact absurd refers id

/-- The nodes of the sets in the program of a tree, in the order of the sets. -/
def setNodes (t : Tree) (root : ℕ) : List ℕ :=
  (t.rootCode root).sets.toList.map Prod.fst

/-- The set nodes stand in the order of their sets. -/
theorem getElem?_setNodes {root index id : ℕ} : (t.setNodes root)[index]? = some id ↔
    ∃ s, (t.rootCode root).sets[index]? = some (id, s) := by
  rw [setNodes, List.getElem?_map, Array.getElem?_toList, Option.map_eq_some_iff]
  constructor
  · rintro ⟨⟨_, s⟩, look, rfl⟩
    exact ⟨s, look⟩
  · rintro ⟨s, look⟩
    exact ⟨_, look, rfl⟩

/-- **The sets of a program are those of its set nodes**, each of them once, and each instruction
that is emitted for a set node refers to its own set. -/
theorem keepsSets_wideProgram (ordered : t.Ordered) (root : ℕ) :
    (t.wideProgram root).KeepsSets t (t.expr root).owners (t.setNodes root) := by
  obtain ⟨valid, -⟩ := valid_rootCode ordered root
  obtain ⟨size, length⟩ := size_wideProgram ordered root
  constructor
  · exact valid.nodes
  · show (List.map Prod.fst _).length = ((t.rootCode root).sets.map Prod.snd).size
    rw [List.length_map, Array.size_map, Array.length_toList]
  · intro index id look
    obtain ⟨s, entry⟩ := getElem?_setNodes.1 look
    refine ⟨s, ?_, (Code.within_finish _ _).sets _ _ entry⟩
    have own := valid.sets _ (Array.mem_of_getElem? entry)
    unfold set? at own
    split at own
    · next look =>
      cases own
      exact look
    · cases own
  · rw [size, length]
  · intro k id
    constructor
    · intro emitted
      have lt : k < (t.rootCode root).here := length ▸ (List.getElem?_eq_some_iff.1 emitted).1
      have inside : k < (t.wideProgram root).insts.size := by omega
      have look := Array.getElem?_eq_getElem inside
      rcases refers_wideProgram ordered look with ⟨last, -⟩ | ⟨owner, emitted', refers⟩
      · omega
      · rw [emitted, Option.some.injEq] at emitted'
        subst emitted'
        generalize (t.wideProgram root).insts[k] = inst at look refers
        cases inst with
        | set index => exact ⟨index, look, getElem?_setNodes.2 refers⟩
        | _ => exact absurd refers not_false
    · rintro ⟨index, look, at_node⟩
      rcases refers_wideProgram ordered look with ⟨-, last⟩ | ⟨_ | owner, emitted, refers⟩
      · cases last
      · exact absurd refers not_false
      · obtain ⟨s, entry⟩ := refers
        obtain ⟨s', entry'⟩ := getElem?_setNodes.1 at_node
        cases entry.symm.trans entry'
        exact emitted

end Tree

end PatternSampler
