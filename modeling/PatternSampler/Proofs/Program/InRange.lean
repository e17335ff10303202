/-
# Searches stay in range

A search indexes instructions, sets, slots, the input and its own record of writes.  In a linked
program no run leaves the program wherever a search can come to, and what the search has kept lies
in range.  If the program is well formed, then nothing is looked up that is not there.

* `Search.InRange` : the search stands at an instruction, and what it has kept lies in range.
* `Search.InRange.exec`, `Search.InRange.resume` : what one step of the search preserves.
* `Program.Reaches` : where a search can come to.
* `Tree.program_inRange` : the programs of trees.
-/
import PatternSampler.Proofs.Program.Slots
import PatternSampler.Proofs.Program.Undo

namespace PatternSampler

variable {p : Program} {input : Array Char} {s s' : Search}

namespace Search

/-- The positions in slots lie within the input. -/
def Kept (input : Array Char) (slots : Array (Option ℕ)) : Prop :=
  ∀ slot pos, slots.getD slot none = some pos → pos ≤ input.size

/-- The search stands at an instruction and within the input, and it can go back: all positions and
slots that it has kept are in range, and writes have been noted up to each mark, the later ones
further on. -/
structure InRange (p : Program) (input : Array Char) (s : Search) : Prop where
  pc : s.pc < p.insts.size
  pos : s.pos ≤ input.size
  size : s.slots.size = p.slotCount
  kept : Kept input s.slots
  undo : ∀ write ∈ s.undo, write.1 < p.slotCount ∧ ∀ pos, write.2 = some pos → pos ≤ input.size
  pending : ∀ branch ∈ s.pending,
    branch.pc < p.insts.size ∧ branch.pos ≤ input.size ∧ branch.mark ≤ s.undo.size
  nested : s.pending.Pairwise fun later earlier => earlier.mark ≤ later.mark

/-- What an instruction looks up where the search stands is there. -/
def Indexes (p : Program) (input : Array Char) (s : Search) : Inst → Prop
  | .set index => index < p.sets.size
  | .save slot | .progress slot => slot < s.slots.size
  | .backref group => p.startSlot group < s.slots.size ∧ p.stopSlot group < s.slots.size ∧
    ∀ start stop, s.slot? (p.startSlot group) = some start →
      s.slot? (p.stopSlot group) = some stop → start ≤ input.size ∧ stop ≤ input.size
  | _ => True

/-- **The next instruction is there**, and so is what it looks up. -/
theorem InRange.exists_indexes (well : p.WellFormed) (h : s.InRange p input) :
    ∃ inst, p.insts[s.pc]? = some inst ∧ s.Indexes p input inst := by
  obtain ⟨inst, look⟩ : ∃ inst, p.insts[s.pc]? = some inst := ⟨_, Array.getElem?_eq_getElem h.pc⟩
  refine ⟨inst, look, ?_⟩
  have mem := Array.mem_of_getElem? look
  cases inst with
  | set index => exact well.set index mem
  | save slot =>
    show slot < s.slots.size
    rw [h.size]
    exact well.save slot mem
  | progress slot =>
    show slot < s.slots.size
    rw [h.size]
    exact (well.progress slot mem).2
  | backref group =>
    obtain ⟨first, second⟩ := well.backref group mem
    obtain ⟨start, stop⟩ := Program.groupSlots_eq second
    show _ < s.slots.size ∧ _ < s.slots.size ∧ _
    rw [start, stop, h.size]
    exact ⟨first, second, fun _ _ begins stops => ⟨h.kept _ _ begins, h.kept _ _ stops⟩⟩
  | _ => trivial

/-! ## Going back -/

theorem Kept.setIfInBounds {slots : Array (Option ℕ)} (h : Kept input slots) (slot : ℕ)
    {value : Option ℕ} (within : ∀ pos, value = some pos → pos ≤ input.size) :
    Kept input (slots.setIfInBounds slot value) := by
  intro other pos
  rw [Array.getD_eq_getD_getElem?, Array.getElem?_setIfInBounds]
  have old := h other pos
  rw [Array.getD_eq_getD_getElem?] at old
  split
  · split
    · exact within pos
    · nofun
  · exact old

/-- Undoing writes puts back positions within the input. -/
theorem Kept.revert {undo : Array (ℕ × Option ℕ)} {slots : Array (Option ℕ)}
    (h : Kept input slots)
    (noted : ∀ write ∈ undo, ∀ pos, write.2 = some pos → pos ≤ input.size) (mark : ℕ) :
    Kept input (revert undo mark slots) := by
  have noted : ∀ write ∈ (undo.extract mark).toList, ∀ pos, write.2 = some pos →
      pos ≤ input.size := by
    intro write mem
    rw [Array.mem_toList_iff, Array.mem_extract_iff_getElem] at mem
    obtain ⟨k, lt, rfl⟩ := mem
    exact noted _ (Array.getElem_mem _)
  rw [Search.revert, ← Array.foldr_toList]
  generalize (undo.extract mark).toList = writes at noted
  induction writes with
  | nil => exact h
  | cons write writes ih =>
    rw [List.foldr_cons]
    exact (ih fun w mem => noted w (List.mem_cons_of_mem _ mem)).setIfInBounds _
      (noted write List.mem_cons_self)

/-- **Going back stays in range.** -/
theorem InRange.resume (h : s.InRange p input) (back : s.resume = some s') :
    s'.InRange p input := by
  obtain ⟨pc, pos, slots, undo, pending⟩ := s
  cases pending with
  | nil => cases back
  | cons branch others =>
    cases back
    have ⟨before, nested⟩ := List.pairwise_cons.1 h.nested
    obtain ⟨pc, pos, mark⟩ := h.pending branch List.mem_cons_self
    have size : (undo.shrink branch.mark).size = branch.mark := by
      simp only [Array.size_shrink]
      exact Nat.min_eq_left mark
    refine ⟨pc, pos, (size_revert).trans h.size, h.kept.revert (fun w mem => (h.undo w mem).2) _,
      fun write mem => ?_, fun other mem => ?_, nested⟩
    · rw [Array.shrink_eq_take, Array.take, Array.mem_extract_iff_getElem] at mem
      obtain ⟨k, lt, rfl⟩ := mem
      exact h.undo _ (Array.getElem_mem _)
    · obtain ⟨pc', pos', -⟩ := h.pending other (List.mem_cons_of_mem _ mem)
      exact ⟨pc', pos', (before other mem).trans_eq size.symm⟩

/-! ## One instruction -/

/-- The search goes on with the next instruction. -/
theorem InRange.advance (h : s.InRange p input) (pc : s.pc + 1 < p.insts.size) {read : ℕ}
    (pos : s.pos + read ≤ input.size) :
    InRange p input { s with pc := s.pc + 1, pos := s.pos + read } :=
  { h with pc, pos }

/-- Another way is left behind. -/
theorem InRange.fork (h : s.InRange p input) {first second : ℕ} (left : first < p.insts.size)
    (right : second < p.insts.size) :
    InRange p input
      { s with pc := first, pending := ⟨second, s.pos, s.undo.size⟩ :: s.pending } where
  pc := left
  pos := h.pos
  size := h.size
  kept := h.kept
  undo := h.undo
  pending := List.forall_mem_cons.2 ⟨⟨right, h.pos, le_rfl⟩, h.pending⟩
  nested := List.pairwise_cons.2 ⟨fun branch mem => (h.pending branch mem).2.2, h.nested⟩

/-- The position is kept. -/
theorem InRange.save (h : s.InRange p input) (pc : s.pc + 1 < p.insts.size) {slot : ℕ}
    (lt : slot < p.slotCount) :
    InRange p input { s with
      pc := s.pc + 1
      slots := s.slots.setIfInBounds slot (some s.pos)
      undo := s.undo.push (slot, s.slot? slot) } where
  pc := pc
  pos := h.pos
  size := Array.size_setIfInBounds.trans h.size
  kept := h.kept.setIfInBounds slot fun _ eq => Option.some.inj eq ▸ h.pos
  undo := by
    intro write mem
    rcases Array.mem_push.1 mem with mem | rfl
    · exact h.undo write mem
    · exact ⟨lt, h.kept slot⟩
  pending := by
    intro branch mem
    obtain ⟨pc, pos, mark⟩ := h.pending branch mem
    exact ⟨pc, pos, mark.trans (by simp)⟩
  nested := h.nested

end Search

/-- The effect of an instruction is a search in range.  Where the search breaks off, it comes to
nothing. -/
def Effect.InRange (p : Program) (input : Array Char) : Effect → Prop
  | .accept | .stray => True
  | .fail s | .next s | .fork s => s.InRange p input

namespace Search

/-- **An instruction stays in range.** -/
theorem InRange.exec (linked : p.Linked) (h : s.InRange p input) :
    (p.exec input s).InRange p input := by
  obtain ⟨inst, look⟩ : ∃ inst, p.insts[s.pc]? = some inst := ⟨_, Array.getElem?_eq_getElem h.pc⟩
  have mem := Array.mem_of_getElem? look
  -- only the last instruction accepts, so behind any other one there is another
  have next (other : inst ≠ .accept) : s.pc + 1 < p.insts.size := by
    have pc := h.pc
    have last : s.pc + 1 ≠ p.insts.size := fun last =>
      other (Option.some.inj (look.symm.trans ((linked.accept s.pc).2 last)))
    omega
  unfold Program.exec
  rw [look]
  cases inst with
  | char c =>
    dsimp only
    split
    · next found => exact h.advance (next (by simp)) (Array.getElem?_eq_some_iff.1 found).1
    · exact h
  | set index =>
    dsimp only
    split
    · exact h
    · trivial
    · next found _ =>
      split
      · exact h.advance (next (by simp)) (Array.getElem?_eq_some_iff.1 found).1
      · exact h
  | accept =>
    dsimp only
    split
    · trivial
    · exact h
  | jump target => exact { h with pc := linked.jump target mem }
  | split first second =>
    exact h.fork (linked.split first second mem).1 (linked.split first second mem).2
  | save slot =>
    dsimp only
    split
    · next lt => exact h.save (next (by simp)) (h.size ▸ lt)
    · trivial
  | backref group =>
    dsimp only
    split
    · split
      · next start stop _ _ =>
        split
        · next reads =>
          have le : s.pos + (stop - start) ≤ input.size := by
            have fits := reads.2
            rw [Program.repeats, Bool.and_eq_true] at fits
            exact of_decide_eq_true fits.1
          exact h.advance (next (by simp)) le
        · exact h
      · exact h
    · trivial
  | progress slot =>
    dsimp only
    split
    · split
      · exact h
      · exact h.advance (next (by simp)) h.pos
    · trivial
  | nop => exact absurd mem linked.nop

end Search

/-! ## Where the search comes to -/

namespace Program

/-- One step of a search: the run goes on, or, whether it has failed or has had all its steps, the
search goes back. -/
inductive Goes (p : Program) (input : Array Char) : Search → Search → Prop
  | next {s s' : Search} : p.exec input s = .next s' → p.Goes input s s'
  | fork {s s' : Search} : p.exec input s = .fork s' → p.Goes input s s'
  | back {s s' : Search} : s.resume = some s' → p.Goes input s s'

/-- Where the search can come to. -/
def Reaches (p : Program) (input : Array Char) (s : Search) : Prop :=
  Relation.ReflTransGen (p.Goes input) p.start s

theorem Goes.inRange (linked : p.Linked) (step : p.Goes input s s')
    (h : s.InRange p input) : s'.InRange p input := by
  cases step with
  | next goes =>
    have after := h.exec linked
    rwa [goes] at after
  | fork goes =>
    have after := h.exec linked
    rwa [goes] at after
  | back back => exact h.resume back

theorem inRange_start (some : 0 < p.insts.size) (input : Array Char) :
    p.start.InRange p input where
  pc := some
  pos := Nat.zero_le _
  size := Array.size_replicate
  kept := by
    intro slot pos
    rw [Array.getD_eq_getD_getElem?, start, Array.getElem?_replicate]
    split <;> nofun
  undo := by simp [start]
  pending := by simp [start]
  nested := .nil

/-- **The search of a linked program stays in range**, wherever it comes to. -/
theorem Linked.inRange_of_reaches (linked : p.Linked) (some : 0 < p.insts.size)
    (h : p.Reaches input s) : s.InRange p input := by
  induction h with
  | refl => exact inRange_start some input
  | tail _ step ih => exact step.inRange linked ih

end Program

namespace Tree

variable {t : Tree}

/-- The program of a tree has an instruction. -/
theorem size_program_pos (ordered : t.Ordered) (root : ℕ) : 0 < (t.program root).insts.size := by
  rw [← (keepsSets_program ordered root).size]
  exact Nat.succ_pos _

/-- **The program of a tree is linked, and the search never leaves it.**  Each of its sets comes
from a node of its own, and whatever input the program is run on, the search always stands at an
instruction.  If the slots fit, then the program is well formed, and all that the search looks up is
there. -/
theorem program_inRange (ordered : t.Ordered) (root : ℕ) :
    (t.program root).Linked ∧
      (∃ nodes, (t.program root).KeepsSets t (t.expr root).owners nodes) ∧
      (∀ input s, (t.program root).Reaches input s → s.InRange (t.program root) input) ∧
      (t.SlotsFit root → (t.program root).WellFormed ∧
        ∀ input s, (t.program root).Reaches input s →
          ∃ inst, (t.program root).insts[s.pc]? = some inst ∧
            s.Indexes (t.program root) input inst) := by
  have linked := linked_program ordered root
  have inRange (input : Array Char) (s : Search) (reaches : (t.program root).Reaches input s) :=
    linked.inRange_of_reaches (size_program_pos ordered root) reaches
  refine ⟨linked, ⟨_, keepsSets_program ordered root⟩, inRange, fun fit => ?_⟩
  have well := wellFormed_program ordered fit
  exact ⟨well, fun input s reaches => (inRange input s reaches).exists_indexes well⟩

/-- A loop around a choice between a set twice, a captured one and what the group has captured; the
set is shared. -/
def shared : Tree :=
  { nodes := #[{ shape := .set (.ofItems true [.range 'a' 'c']) }, { shape := .concat [0, 0] },
      { shape := .group 0 none (some 1) }, { shape := .backref 2 },
      { shape := .alternation [1, 2, 3] }, { shape := .repetition 4 ⟨1, none⟩ false }] }

/-- Its program has six instructions for the set, and the set once. -/
theorem program_inRange_shared : shared.Ordered ∧
    (shared.expr 5).owners.count (some 0) = 6 ∧ (shared.program 5).sets.size = 1 ∧
    (shared.program 5).WellFormed ∧
    (∃ nodes, (shared.program 5).KeepsSets shared (shared.expr 5).owners nodes) ∧
    ∀ input s, (shared.program 5).Reaches input s → s.InRange (shared.program 5) input ∧
      ∃ inst, (shared.program 5).insts[s.pc]? = some inst ∧
        s.Indexes (shared.program 5) input inst := by
  have ordered : shared.Ordered := by
    intro id shape h
    have lt : id < 6 := lt_size_of_shape? h
    interval_cases id <;> cases h <;> decide
  obtain ⟨-, keeps, inRange, fits⟩ := shared.program_inRange ordered 5
  obtain ⟨well, indexes⟩ := fits (slotsFit_of_lt (by decide +kernel))
  exact ⟨ordered, by decide +kernel, by decide +kernel, well, keeps,
    fun input s reaches => ⟨inRange input s reaches, indexes input s reaches⟩⟩

/-- The number of slots, one more than the last one of a group, starts again from zero: the program
saves to a slot and has none. -/
theorem not_inRange_program_utmost : utmost.Ordered ∧
    (utmost.program 1).insts =
      #[.save (2 ^ 64 - 2), .char 'a', .save (2 ^ 64 - 1), .accept] ∧
    (utmost.program 1).slotCount = 0 ∧ ¬ (utmost.program 1).WellFormed ∧
    (utmost.program 1).loop #['a'] 1 (utmost.program 1).start = some .stray := by
  refine ⟨ordered_utmost, insts_program_utmost, slotCount_program_utmost, fun well => ?_,
    by decide +kernel⟩
  have lt := well.save (2 ^ 64 - 2) (by simp [insts_program_utmost])
  rw [slotCount_program_utmost] at lt
  exact Nat.not_lt_zero _ lt

end Tree

end PatternSampler
