/-
# Runs come to an end

Programs contain jumps back, so their text alone does not show that a run ends.  What does is that a
loop keeps in a slot the position where it began its present round, and that it begins another round
at a later position only.  If some code inside of the loop writes to that slot, too, it does so
between where the round began and where it is over, which is one place if nothing has been read in
between.

* `Program.Halts` : no run from a configuration goes on forever.
* `Ends` : runs that enter a stretch of code come to an end if those do that leave it; stretches are
  put together by `Ends.seq`, `Ends.choice`, `Ends.optional` and `Ends.loop`.
* `Piece.ends` : every piece of code is such a stretch.
* `Tree.halts_program` : no run of the program of a tree goes on forever.
-/
import PatternSampler.Proofs.Program.Budget
import PatternSampler.Proofs.Program.Layout
import PatternSampler.Proofs.Program.Segment

namespace PatternSampler

namespace Program

variable {p : Program} {input : Array Char} {c d d₁ d₂ : Config}

/-! ## Runs that end -/

/-- No run from a configuration goes on forever. -/
def Halts (p : Program) (input : Array Char) (c : Config) : Prop :=
  Acc (fun d c => p.Follows input c d) c

/-- A run ends if it does so whatever step it takes. -/
theorem halts_of_forall (h : ∀ d, p.Follows input c d → p.Halts input d) : p.Halts input c :=
  Acc.intro c h

theorem halts_of_next (step : p.step input c = .next d) (h : p.Halts input d) :
    p.Halts input c := by
  apply halts_of_forall
  intro e follows
  rwa [(follows_of_next step).1 follows]

theorem halts_of_fork (step : p.step input c = .fork d₁ d₂) (first : p.Halts input d₁)
    (second : p.Halts input d₂) : p.Halts input c := by
  apply halts_of_forall
  intro e follows
  rcases (follows_of_fork step).1 follows with rfl | rfl
  · exact first
  · exact second

theorem halts_of_stuck (h : p.step input c = .accept ∨ p.step input c = .fail) :
    p.Halts input c :=
  halts_of_forall fun _ follows => absurd follows (not_follows_of_stuck h)

end Program

/-! ## Stretches of code -/

variable {p : Program} {input : Array Char} {a b m : ℕ}

/-- How a configuration may come after another one: nothing that was read is given back, and a slot
differs only if some position in between has been kept in it. -/
structure Onward (input : Array Char) (c d : Config) : Prop where
  le : c.pos ≤ d.pos
  inside : d.pos ≤ input.size
  kept : ∀ slot : ℕ, d.slots[slot]? = c.slots[slot]? ∨
    ∃ pos, d.slots[slot]? = some pos ∧ c.pos ≤ pos ∧ pos ≤ d.pos

theorem Onward.refl {c : Config} (inside : c.pos ≤ input.size) : Onward input c c :=
  ⟨le_rfl, inside, fun _ => Or.inl rfl⟩

theorem Onward.trans {c d e : Config} (first : Onward input c d) (second : Onward input d e) :
    Onward input c e where
  le := first.le.trans second.le
  inside := second.inside
  kept := by
    intro slot
    rcases second.kept slot with same | ⟨pos, look, after, before⟩
    · rw [same]
      refine (first.kept slot).imp_right ?_
      rintro ⟨pos, look, after, before⟩
      exact ⟨pos, look, after, before.trans second.le⟩
    · exact Or.inr ⟨pos, look, first.le.trans after, before⟩

/-- The next instruction does not count. -/
theorem Onward.at_pc {pc : ℕ} {c d : Config} (h : Onward input { c with pc } d) :
    Onward input c d :=
  ⟨h.le, h.inside, h.kept⟩

/-- The position is kept in a slot. -/
theorem Onward.insert {c : Config} (inside : c.pos ≤ input.size) (pc slot : ℕ) :
    Onward input c { c with pc, slots := c.slots.insert slot c.pos } where
  le := le_rfl
  inside := inside
  kept := by
    intro other
    by_cases eq : slot = other
    · subst eq
      exact Or.inr ⟨c.pos, Std.TreeMap.getElem?_insert_self, le_rfl, le_rfl⟩
    · exact Or.inl (getElem?_insert_of_ne eq)

/-- A position in between is still kept where one was kept before. -/
theorem Onward.exists_kept {c d : Config} {slot pos : ℕ} (h : Onward input c d)
    (look : c.slots[slot]? = some pos) (eq : pos = c.pos) :
    ∃ later, d.slots[slot]? = some later ∧ c.pos ≤ later ∧ later ≤ d.pos := by
  rcases h.kept slot with same | found
  · exact ⟨pos, same.trans look, eq.ge, eq.trans_le h.le⟩
  · exact found

/-- Runs that enter the code at `a` come to an end if all those do that leave it at `b`. -/
def Ends (p : Program) (input : Array Char) (a b : ℕ) : Prop :=
  ∀ c : Config, c.pc = a → c.pos ≤ input.size →
    (∀ d : Config, d.pc = b → Onward input c d → p.Halts input d) → p.Halts input c

/-- A straight instruction goes on with the next one. -/
theorem Program.Follows.onward {c d : Config} {inst : Inst} (follows : p.Follows input c d)
    (look : p.insts[c.pc]? = some inst) (straight : inst.Straight) (inside : c.pos ≤ input.size) :
    d.pc = c.pc + 1 ∧ Onward input c d := by
  rcases follows.move inside with ⟨other, target, here, crooked, -⟩ | ⟨n, room, eq⟩ |
    ⟨slot, here, rfl⟩
  · obtain rfl : inst = other := Option.some.inj (look.symm.trans here)
    exact absurd straight crooked
  · cases eq
    exact ⟨rfl, Nat.le_add_right _ _, room, fun _ => Or.inl rfl⟩
  · exact ⟨rfl, .insert inside _ slot⟩

namespace Ends

/-- No code stays where it is. -/
theorem skip (a : ℕ) : Ends p input a a :=
  fun c hc inside exits => exits c hc (.refl inside)

/-- A straight instruction. -/
theorem inst {inst : Inst} (look : p.insts[a]? = some inst) (straight : inst.Straight) :
    Ends p input a (a + 1) := by
  rintro c rfl inside exits
  apply Program.halts_of_forall
  intro d follows
  obtain ⟨pc, onward⟩ := follows.onward look straight inside
  exact exits d pc onward

/-- Two stretches one after the other. -/
theorem seq (first : Ends p input a m) (second : Ends p input m b) : Ends p input a b := by
  intro c hc inside exits
  apply first c hc inside
  intro d hd onward
  apply second d hd onward.inside
  intro e he onward'
  exact exits e he (onward.trans onward')

/-- A split in front of one stretch, which a jump at its end takes past a second one. -/
theorem choice {first second : ℕ} (split : p.insts[a]? = some (.split (a + 1) second))
    (left : Ends p input (a + 1) first) (jump : p.insts[first]? = some (.jump b))
    (right : Ends p input second b) : Ends p input a b := by
  rintro c rfl inside exits
  have step : p.step input c = .fork { c with pc := c.pc + 1 } { c with pc := second } := by
    simp [Program.step, split]
  apply Program.halts_of_fork step
  · refine left { c with pc := c.pc + 1 } rfl inside ?_
    rintro d rfl onward
    have step' : p.step input d = .next { d with pc := b } := by
      simp [Program.step, jump]
    exact Program.halts_of_next step' (exits _ rfl ⟨onward.le, onward.inside, onward.kept⟩)
  · exact right _ rfl inside fun d hd onward => exits d hd onward.at_pc

/-- A split in front of a stretch that may be left out. -/
theorem optional (split : p.insts[a]? = some (.split (a + 1) b)) (body : Ends p input (a + 1) b) :
    Ends p input a b := by
  rintro c rfl inside exits
  have step : p.step input c = .fork { c with pc := c.pc + 1 } { c with pc := b } := by
    simp [Program.step, split]
  apply Program.halts_of_fork step
  · exact body _ rfl inside fun d hd onward => exits d hd onward.at_pc
  · exact exits _ rfl ⟨le_rfl, inside, fun _ => Or.inl rfl⟩

/-- **A loop comes to an end.**  When a round is over, its slot holds a position between where the
round began and where it is over; so if nothing has been read, there is no other round. -/
theorem loop {slot x : ℕ} (split : p.insts[a]? = some (.split (a + 1) b))
    (save : p.insts[a + 1]? = some (.save slot)) (body : Ends p input (a + 2) x)
    (progress : p.insts[x]? = some (.progress slot)) (jump : p.insts[x + 1]? = some (.jump a)) :
    Ends p input a b := by
  intro c hc inside exits
  -- by induction on what is left to read, which is less in each round
  induction left : input.size - c.pos using Nat.strong_induction_on generalizing c with
  | _ left ih =>
    subst hc
    have step : p.step input c = .fork { c with pc := c.pc + 1 } { c with pc := b } := by
      simp [Program.step, split]
    apply Program.halts_of_fork step
    · have saved : p.step input { c with pc := c.pc + 1 } =
          .next { c with pc := c.pc + 2, slots := c.slots.insert slot c.pos } := by
        simp [Program.step, save]
      have began : Onward input c { c with pc := c.pc + 2, slots := c.slots.insert slot c.pos } :=
        .insert inside _ slot
      apply Program.halts_of_next saved
      refine body _ rfl inside ?_
      rintro d rfl onward
      obtain ⟨kept, look, after, before⟩ :=
        onward.exists_kept Std.TreeMap.getElem?_insert_self rfl
      by_cases idle : kept = d.pos
      · exact Program.halts_of_stuck (Or.inr (by simp [Program.step, progress, look, idle]))
      · have passed : p.step input d = .next { d with pc := d.pc + 1 } := by
          simp [Program.step, progress, look, idle, Config.advance]
        have again : p.step input { d with pc := d.pc + 1 } = .next { d with pc := c.pc } := by
          simp [Program.step, jump]
        apply Program.halts_of_next passed
        apply Program.halts_of_next again
        have whole := began.trans onward
        have round : Onward input c { d with pc := c.pc } := ⟨whole.le, whole.inside, whole.kept⟩
        have after : c.pos ≤ kept := after
        have room : d.pos ≤ input.size := onward.inside
        refine ih (input.size - d.pos) (by omega) _ rfl room ?_ rfl
        intro e he onward'
        exact exits e he (round.trans onward')
    · exact exits _ rfl ⟨le_rfl, inside, fun _ => Or.inl rfl⟩

end Ends

/-! ## Pieces of code -/

/-- **Every piece is left by the runs that enter it**, unless they end in it, whichever slots it
has. -/
theorem Piece.ends {groups : Set ℕ} {table : ℕ → Option CharSet} {own : List (Option ℕ)}
    {loops : ℕ} {body : Code → Code} (h : Piece groups table own loops body) {c : Code}
    (within : (body c).Within p) : Ends p input c.here (body c).here := by
  induction h generalizing c with
  | skip => exact .skip c.here
  | char x =>
    rw [Code.here_add]
    exact .inst within.last trivial
  | @set id s _ =>
    obtain ⟨-, index, insts⟩ := Code.exists_addSet id s c
    have look : (c.addSet id s).insts[c.here]? = some (.set index) := by
      rw [insts]
      exact Array.getElem?_push_size
    rw [(Steady.addSet id s).here]
    exact .inst (within.insts _ _ look) trivial
  | backref =>
    rw [Code.here_add]
    exact .inst within.last trivial
  | seq _ part' first second =>
    exact (first (part'.steady.front_within within)).seq (second within)
  | optional part ih =>
    obtain ⟨inner, split⟩ := part.steady.optional_within within
    have run := ih inner
    rw [← Code.addOptional_eq part.steady, Code.here_openOptional] at run
    exact .optional split run
  | @choice _ _ _ _ body body' part part' first second =>
    obtain ⟨inner, split, jump, whole⟩ := part.steady.choice_within part'.steady within
    have left := first inner
    have right := second (whole.symm ▸ within)
    rw [Code.here_openChoice] at left
    rw [whole, Code.here_add] at right
    exact .choice split left jump right
  | loop part ih =>
    obtain ⟨inner, split, save, progress, jump⟩ := part.steady.loop_within within
    have run := ih inner
    rw [Code.here_openLoop] at run
    exact .loop split save run progress jump
  | capture _ part ih =>
    obtain ⟨inner, start, stop, last⟩ := part.steady.capture_within within
    have run := ih inner
    rw [Code.here_addSave] at run
    rw [last]
    exact ((Ends.inst start trivial).seq run).seq (.inst stop trivial)

/-- **No run of the program of a tree goes on forever**, however large the numbers of its slots are.
-/
theorem Tree.halts_program {t : Tree} (ordered : t.Ordered) (root : ℕ) (input : Array Char) :
    (t.program root).Halts input {} := by
  have within := Code.within_finish t.captureCount ((t.expr root).emit
    { nextSlot := 2 * (t.captureCount + 1) % t.slotModulus root, modulus := t.slotModulus root })
  have accept := Code.accept_finish t.captureCount ((t.expr root).emit
    { nextSlot := 2 * (t.captureCount + 1) % t.slotModulus root, modulus := t.slotModulus root })
  apply (isPiece_expr ordered root).ends within {} rfl (Nat.zero_le _)
  rintro ⟨pc, pos, slots⟩ rfl -
  apply Program.halts_of_stuck
  by_cases done : pos = input.size
  · exact Or.inl (by simp [Program.step, accept, done])
  · exact Or.inr (by simp [Program.step, accept, done])

end PatternSampler
