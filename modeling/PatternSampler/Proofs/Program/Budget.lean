/-
# The budget of a search

A shortest accepting run never comes back to a configuration that it has been in, and a run that
comes back to none has fewer steps than `Program.budget` allows.  So the search finds an accepting
run whenever there is one.

The measure behind this is `Program.rank`.  It falls whenever characters are read, and it falls
whenever a slot takes up the position where the run stands; while it stays the same, only the next
instruction changes.  A run with more steps than there are pairs of an instruction and a rank
therefore repeats a configuration, and the part between the two can be cut out.

Main statement: `fullMatch_eq_true_iff`, for every program that refers to nothing that it does not
have.
-/
import PatternSampler.Proofs.Program.Acceptance
import PatternSampler.Proofs.Program.Undo

namespace PatternSampler

/-! ## Configurations that no step can tell apart -/

/-- Two configurations with the same next instruction, the same position and the same slots. -/
structure Config.Same (c d : Config) : Prop where
  pc : c.pc = d.pc
  pos : c.pos = d.pos
  slots : ∀ slot : ℕ, c.slots[slot]? = d.slots[slot]?

/-- Two steps of one kind that lead to configurations which cannot be told apart. -/
inductive Step.Same : Step → Step → Prop
  | accept : Same .accept .accept
  | fail : Same .fail .fail
  | next {c d : Config} : c.Same d → Same (.next c) (.next d)
  | fork {c₁ c₂ d₁ d₂ : Config} : c₁.Same d₁ → c₂.Same d₂ → Same (.fork c₁ c₂) (.fork d₁ d₂)

/-- An instruction that neither jumps nor splits leads to the one behind it. -/
def Inst.Straight : Inst → Prop
  | .jump _ | .split _ _ => False
  | _ => True

namespace Program

variable {p : Program} {input : Array Char}

/-- A step sees of a configuration only what makes it the same as another one. -/
theorem step_same {c d : Config} (same : c.Same d) :
    (p.step input c).Same (p.step input d) := by
  obtain ⟨pc, pos, slots⟩ := c
  obtain ⟨pc', pos', slots'⟩ := d
  obtain ⟨hpc, hpos, look⟩ := same
  simp only at hpc hpos look
  subst hpc hpos
  have advance (n : ℕ) :
      ((Config.mk pc pos slots).advance n).Same ((Config.mk pc pos slots').advance n) :=
    .next ⟨rfl, rfl, look⟩
  unfold Program.step
  rcases p.insts[pc]? with _ | inst
  · exact .fail
  cases inst with
  | char x =>
    simp only
    split
    · exact advance 1
    · exact .fail
  | set index =>
    simp only
    split
    · split
      · exact advance 1
      · exact .fail
    · exact .fail
  | accept =>
    simp only
    split
    · exact .accept
    · exact .fail
  | jump target => exact .next ⟨rfl, rfl, look⟩
  | split first second => exact .fork ⟨rfl, rfl, look⟩ ⟨rfl, rfl, look⟩
  | save slot =>
    refine .next ⟨rfl, rfl, fun other => ?_⟩
    simp only [Std.TreeMap.getElem?_insert, look]
  | progress slot =>
    simp only [look]
    split
    · exact .fail
    · exact advance 0
  | backref group =>
    simp only [look]
    split
    · split
      · exact advance _
      · exact .fail
    · exact .fail
  | nop => exact advance 0

/-- Configurations that cannot be told apart are followed by such configurations. -/
theorem Follows.same {c c' d : Config} (follows : p.Follows input c d) (same : c.Same c') :
    ∃ d', p.Follows input c' d' ∧ d.Same d' := by
  have step : (p.step input c).Same (p.step input c') := step_same same
  rcases follows with h | ⟨e, h⟩ | ⟨e, h⟩ <;> rw [h] at step <;>
    rcases h' : p.step input c' with _ | _ | d' | ⟨d₁, d₂⟩ <;> rw [h'] at step <;> cases step
  · exact ⟨d', Or.inl h', ‹_›⟩
  · exact ⟨d₁, Or.inr (Or.inl ⟨d₂, h'⟩), ‹_›⟩
  · exact ⟨d₂, Or.inr (Or.inr ⟨d₁, h'⟩), ‹_›⟩

theorem AcceptsIn.same {n : ℕ} {c c' : Config} (run : p.AcceptsIn input n c)
    (same : c.Same c') : p.AcceptsIn input n c' := by
  induction n generalizing c c' with
  | zero =>
    have step : (p.step input c).Same (p.step input c') := step_same same
    rw [show p.step input c = .accept from run] at step
    rcases h : p.step input c' with _ | _ | _ | _ <;> rw [h] at step <;> cases step
    exact h
  | succ n ih =>
    obtain ⟨d, follows, run⟩ := run
    obtain ⟨d', follows', same'⟩ := follows.same same
    exact ⟨d', follows', ih run same'⟩

/-! ## What a step changes -/

/-- A run that goes on stands at an instruction. -/
theorem pc_lt_of_not_fail {c : Config} (h : p.step input c ≠ .fail) : c.pc < p.insts.size := by
  by_contra out
  apply h
  unfold Program.step
  rw [Array.getElem?_eq_none (Nat.le_of_not_lt out)]

/-- What a step does: it goes on elsewhere, it reads on, or it keeps the position in a slot. -/
inductive Move (p : Program) (input : Array Char) (c d : Config) : Prop
  | turn (inst : Inst) (target : ℕ) : p.insts[c.pc]? = some inst → ¬ inst.Straight →
      d = { c with pc := target } → Move p input c d
  | read (n : ℕ) : c.pos + n ≤ input.size → c.advance n = .next d → Move p input c d
  | save (slot : ℕ) : p.insts[c.pc]? = some (.save slot) →
      d = { c with pc := c.pc + 1, slots := c.slots.insert slot c.pos } → Move p input c d

theorem Follows.move {c d : Config} (follows : p.Follows input c d)
    (inside : c.pos ≤ input.size) : Move p input c d := by
  unfold Follows Program.step at follows
  rcases h : p.insts[c.pc]? with _ | inst
  · simp [h] at follows
  have found {x : Char} (h : input[c.pos]? = some x) : c.pos + 1 ≤ input.size :=
    (Array.getElem?_eq_some_iff.1 h).1
  rw [h] at follows
  cases inst with
  | char x =>
    simp only at follows
    split at follows
    · next eq => exact .read 1 (found eq) (by simpa [Config.advance] using follows)
    · simp at follows
  | set index =>
    simp only at follows
    split at follows
    · next eq _ =>
      split at follows
      · exact .read 1 (found eq) (by simpa [Config.advance] using follows)
      · simp at follows
    · simp at follows
  | accept =>
    simp only at follows
    split at follows <;> simp at follows
  | jump target =>
    simp only [Step.next.injEq, reduceCtorEq, exists_false, or_false] at follows
    exact .turn _ target h id follows.symm
  | split first second =>
    simp only [reduceCtorEq, Step.fork.injEq, false_or] at follows
    rcases follows with ⟨_, eq, -⟩ | ⟨_, -, eq⟩
    · exact .turn _ first h id eq.symm
    · exact .turn _ second h id eq.symm
  | save slot =>
    simp only [Step.next.injEq, reduceCtorEq, exists_false, or_false] at follows
    exact .save slot h follows.symm
  | progress slot =>
    simp only at follows
    split at follows
    · simp at follows
    · exact .read 0 inside (by simpa [Config.advance] using follows)
  | backref group =>
    simp only at follows
    split at follows
    · split at follows
      · next both =>
        have room := both.2
        simp only [repeats, Bool.and_eq_true, decide_eq_true_eq] at room
        exact .read _ room.1 (by simpa [Config.advance] using follows)
      · simp at follows
    · simp at follows
  | nop => exact .read 0 inside (by simpa [Config.advance] using follows)

/-- What a step does to position and slots: it reads on, it keeps the position in a slot, or it
changes nothing. -/
inductive Change (p : Program) (input : Array Char) (c d : Config) : Prop
  | none : d.pos = c.pos → d.slots = c.slots → Change p input c d
  | read : c.pos < d.pos → d.pos ≤ input.size → Change p input c d
  | save (slot : ℕ) : .save slot ∈ p.insts → d.pos = c.pos → d.slots = c.slots.insert slot c.pos →
      Change p input c d

/-- Reading `n` characters from a place where there are as many. -/
theorem Change.advance {c d : Config} {n : ℕ} (room : c.pos + n ≤ input.size)
    (h : c.advance n = .next d) : Change p input c d := by
  cases h
  rcases Nat.eq_zero_or_pos n with rfl | pos
  · exact .none rfl rfl
  · exact .read (Nat.lt_add_of_pos_right pos) room

theorem Follows.change {c d : Config} (follows : p.Follows input c d)
    (inside : c.pos ≤ input.size) : Change p input c d := by
  rcases follows.move inside with ⟨_, target, -, -, rfl⟩ | ⟨n, room, eq⟩ | ⟨slot, look, rfl⟩
  · exact .none rfl rfl
  · exact .advance room eq
  · exact .save slot (Array.mem_of_getElem? look) rfl rfl

/-! ## The rank -/

/-- The slots below `p.slotCount` that hold the position where the run stands. -/
def fresh (p : Program) (c : Config) : Finset ℕ :=
  {slot ∈ Finset.range p.slotCount | c.slots[slot]? = some c.pos}

theorem card_fresh_le (p : Program) (c : Config) : (p.fresh c).card ≤ p.slotCount :=
  (Finset.card_filter_le _ _).trans_eq (Finset.card_range _)

/-- How far a run can still get: what is left to read, and how many slots do not hold the present
position. -/
def rank (p : Program) (input : Array Char) (c : Config) : ℕ :=
  (input.size - c.pos) * (p.slotCount + 1) + (p.slotCount - (p.fresh c).card)

theorem rank_lt (p : Program) (input : Array Char) (c : Config) :
    p.rank input c < (p.slotCount + 1) * (input.size + 1) := by
  have left : (input.size - c.pos) * (p.slotCount + 1) ≤ input.size * (p.slotCount + 1) :=
    Nat.mul_le_mul_right _ (Nat.sub_le _ _)
  rw [rank, Nat.mul_comm (p.slotCount + 1), Nat.succ_mul]
  omega

/-- From one configuration to another the position stays inside the input and the rank does not
rise; if it stays the same, neither position nor slots have changed. -/
structure Sinks (p : Program) (input : Array Char) (c d : Config) : Prop where
  inside : d.pos ≤ input.size
  le : p.rank input d ≤ p.rank input c
  still : p.rank input d = p.rank input c →
    c.pos = d.pos ∧ ∀ slot : ℕ, c.slots[slot]? = d.slots[slot]?

theorem Sinks.refl {c : Config} (inside : c.pos ≤ input.size) : Sinks p input c c :=
  ⟨inside, le_rfl, fun _ => ⟨rfl, fun _ => rfl⟩⟩

theorem Sinks.trans {c d e : Config} (first : Sinks p input c d) (second : Sinks p input d e) :
    Sinks p input c e where
  inside := second.inside
  le := second.le.trans first.le
  still := by
    intro eq
    have le₁ := first.le
    have le₂ := second.le
    obtain ⟨pos₁, slots₁⟩ := first.still (by omega)
    obtain ⟨pos₂, slots₂⟩ := second.still (by omega)
    exact ⟨pos₁.trans pos₂, fun slot => (slots₁ slot).trans (slots₂ slot)⟩

theorem Sinks.of_lt {c d : Config} (inside : d.pos ≤ input.size)
    (lt : p.rank input d < p.rank input c) : Sinks p input c d :=
  ⟨inside, lt.le, fun eq => absurd eq lt.ne⟩

theorem Sinks.of_unchanged {c d : Config} (inside : c.pos ≤ input.size) (pos : d.pos = c.pos)
    (look : ∀ slot : ℕ, c.slots[slot]? = d.slots[slot]?) : Sinks p input c d := by
  have eq : p.rank input d = p.rank input c := by
    simp only [Program.rank, fresh, pos, look]
  exact ⟨pos ▸ inside, eq.le, fun _ => ⟨pos.symm, look⟩⟩

/-- Reading makes up for all slots that may stop holding the position. -/
theorem rank_lt_of_read {c d : Config} (lt : c.pos < d.pos) (le : d.pos ≤ input.size) :
    p.rank input d < p.rank input c := by
  have room : input.size - d.pos + 1 ≤ input.size - c.pos := by omega
  have := Nat.mul_le_mul_right (p.slotCount + 1) room
  rw [Nat.succ_mul] at this
  simp only [rank]
  omega

/-- A slot that is saved to holds the position afterwards. -/
theorem rank_lt_of_save {c d : Config} {slot : ℕ} (lt : slot < p.slotCount) (pos : d.pos = c.pos)
    (slots : d.slots = c.slots.insert slot c.pos) (other : c.slots[slot]? ≠ some c.pos) :
    p.rank input d < p.rank input c := by
  have more : p.fresh c ⊂ p.fresh d := by
    rw [Finset.ssubset_iff_of_subset]
    · refine ⟨slot, ?_, ?_⟩
      · simp [fresh, pos, slots, lt]
      · simp [fresh, other]
    · intro kept old
      simp only [fresh, Finset.mem_filter, pos, slots, Std.TreeMap.getElem?_insert] at old ⊢
      refine ⟨old.1, ?_⟩
      split
      · rfl
      · exact old.2
  have card := Finset.card_lt_card more
  have := card_fresh_le p d
  simp only [rank, pos]
  omega

/-- **A step never raises the rank**, and one that keeps it changes neither position nor slots. -/
theorem Follows.sinks {c d : Config} (saves : ∀ slot, .save slot ∈ p.insts → slot < p.slotCount)
    (follows : p.Follows input c d) (inside : c.pos ≤ input.size) : Sinks p input c d := by
  rcases follows.change inside with ⟨pos, slots⟩ | ⟨lt, le⟩ | ⟨slot, mem, pos, slots⟩
  · exact .of_unchanged inside pos fun slot => by rw [slots]
  · exact .of_lt le (rank_lt_of_read lt le)
  -- a save changes nothing if the slot holds the position already
  · by_cases held : c.slots[slot]? = some c.pos
    · refine .of_unchanged inside pos fun other => ?_
      rw [slots, Std.TreeMap.getElem?_insert]
      split
      · next eq =>
        rw [Nat.compare_eq_eq] at eq
        rw [← eq, held]
      · rfl
    · exact .of_lt (pos ▸ inside) (rank_lt_of_save (saves slot mem) pos slots held)

/-! ## Runs as sequences of configurations -/

/-- The configurations of a run, one after the other. -/
theorem AcceptsIn.exists_sequence {n : ℕ} {c : Config} (run : p.AcceptsIn input n c) :
    ∃ f : ℕ → Config, f 0 = c ∧ (∀ i < n, p.Follows input (f i) (f (i + 1))) ∧
      p.step input (f n) = .accept := by
  induction n generalizing c with
  | zero => exact ⟨fun _ => c, rfl, fun i hi => absurd hi (Nat.not_lt_zero i), run⟩
  | succ n ih =>
    obtain ⟨d, follows, run⟩ := run
    obtain ⟨f, rfl, steps, accepts⟩ := ih run
    refine ⟨fun i => i.casesOn c f, rfl, fun i hi => ?_, accepts⟩
    cases i with
    | zero => exact follows
    | succ i => exact steps i (Nat.lt_of_succ_lt_succ hi)

/-- An accepting run can be entered anywhere on the way to it. -/
theorem AcceptsIn.of_sequence {f : ℕ → Config} {n k : ℕ}
    (steps : ∀ i < n, p.Follows input (f i) (f (i + 1))) (run : p.AcceptsIn input k (f n)) :
    ∀ m ≤ n, p.AcceptsIn input (n - m + k) (f m) := by
  intro m hm
  induction hm using Nat.decreasingInduction with
  | self => simpa using run
  | of_succ i hi ih =>
    rw [show n - i + k = n - (i + 1) + k + 1 by omega]
    exact ih.of_follows (steps i hi)

/-- Along a run the positions stay inside the input and the rank never rises. -/
theorem sinks_sequence (saves : ∀ slot, .save slot ∈ p.insts → slot < p.slotCount)
    {f : ℕ → Config} {n : ℕ} (steps : ∀ i < n, p.Follows input (f i) (f (i + 1)))
    (inside : (f 0).pos ≤ input.size) {j : ℕ} (hj : j ≤ n) :
    ∀ i ≤ j, Sinks p input (f i) (f j) := by
  induction j with
  | zero =>
    intro i hi
    obtain rfl := Nat.le_zero.1 hi
    exact .refl inside
  | succ j ih =>
    have below := ih (Nat.le_of_succ_le hj)
    have step := (steps j hj).sinks saves (below j le_rfl).inside
    intro i hi
    rcases Nat.lt_or_eq_of_le hi with hi | rfl
    · exact (below i (Nat.le_of_lt_succ hi)).trans step
    · exact .refl step.inside

/-! ## The budget suffices -/

/-- A run with as many steps as the budget allows can be shortened. -/
theorem AcceptsIn.shorten (saves : ∀ slot, .save slot ∈ p.insts → slot < p.slotCount)
    {n : ℕ} {c : Config} (inside : c.pos ≤ input.size) (run : p.AcceptsIn input n c)
    (long : p.budget input ≤ n) : ∃ m < n, p.AcceptsIn input m c := by
  obtain ⟨f, rfl, steps, accepts⟩ := run.exists_sequence
  let ranks := (p.slotCount + 1) * (input.size + 1)
  have maps : ∀ i ∈ Finset.range (n + 1), ((f i).pc, p.rank input (f i)) ∈
      Finset.range p.insts.size ×ˢ Finset.range ranks := by
    intro i hi
    rw [Finset.mem_product, Finset.mem_range, Finset.mem_range]
    have runs : p.step input (f i) ≠ .fail := by
      intro fail
      rcases Nat.lt_or_eq_of_le (Nat.le_of_lt_succ (Finset.mem_range.1 hi)) with lt | rfl
      · exact not_follows_of_stuck (Or.inr fail) (steps i lt)
      · rw [fail] at accepts
        cases accepts
    exact ⟨pc_lt_of_not_fail runs, p.rank_lt input (f i)⟩
  have card : (Finset.range p.insts.size ×ˢ Finset.range ranks).card
      < (Finset.range (n + 1)).card := by
    rw [Finset.card_product, Finset.card_range, Finset.card_range, Finset.card_range]
    have : p.budget input = p.insts.size * ranks + 1 := by
      rw [budget, Nat.mul_assoc]
    omega
  -- there are more configurations than pairs, so two of them agree
  obtain ⟨i, j, hij, hj, eq⟩ : ∃ i j, i < j ∧ j ≤ n ∧
      ((f i).pc, p.rank input (f i)) = ((f j).pc, p.rank input (f j)) := by
    obtain ⟨i, hi, j, hj, ne, eq⟩ := Finset.exists_ne_map_eq_of_card_lt_of_maps_to card maps
    rw [Finset.mem_range, Nat.lt_succ_iff] at hi hj
    rcases Nat.lt_or_gt_of_ne ne with lt | lt
    · exact ⟨i, j, lt, hj, eq⟩
    · exact ⟨j, i, lt, hi, eq.symm⟩
  rw [Prod.mk.injEq] at eq
  obtain ⟨pos, slots⟩ := (sinks_sequence saves steps inside hj i hij.le).still eq.2.symm
  -- what follows the second visit can as well follow the first one
  have rest : p.AcceptsIn input (n - j) (f i) := by
    have run := AcceptsIn.of_sequence (k := 0) steps accepts j hj
    rw [Nat.add_zero] at run
    exact run.same ⟨eq.1.symm, pos.symm, fun slot => (slots slot).symm⟩
  have short := AcceptsIn.of_sequence (n := i) (fun k hk => steps k (by omega)) rest 0
    (Nat.zero_le i)
  exact ⟨i - 0 + (n - j), by omega, short⟩

/-- Where some run accepts, one does within the budget. -/
theorem Accepts.exists_lt_budget (saves : ∀ slot, .save slot ∈ p.insts → slot < p.slotCount)
    {c : Config} (inside : c.pos ≤ input.size) (accepts : p.Accepts input c) :
    ∃ n < p.budget input, p.AcceptsIn input n c := by
  classical
  refine ⟨Nat.find accepts, ?_, Nat.find_spec accepts⟩
  by_contra long
  obtain ⟨m, lt, run⟩ := (Nat.find_spec accepts).shorten saves inside (Nat.le_of_not_lt long)
  exact Nat.find_min accepts lt run

/-- **The search is exact.**  It accepts a string exactly if some run of the program does. -/
theorem fullMatch_eq_true_iff (inRange : p.InRange) (chars : List Char) :
    p.fullMatch chars = true ↔ p.Accepts chars.toArray {} := by
  rw [fullMatch_eq_search inRange, search_eq_true_iff]
  simp only [List.mem_singleton, exists_eq_left]
  constructor
  · rintro ⟨n, -, run⟩
    exact ⟨n, run⟩
  · exact fun accepts => accepts.exists_lt_budget inRange.saves (Nat.zero_le _)

end Program

end PatternSampler
