/-
# Accepting runs

What it means that a program accepts: from the first configuration some run, which at every split
may go either way, reaches the end of the input at an accepting instruction.  Each run keeps its own
slots.

The key construction is `Program.Accepts`, acceptance by some run, together with two facts:

* `search_eq_true_iff` : the search succeeds exactly if one of its runs accepts within the number of
  steps that it may still make;
* `accepts_iff_step` : acceptance from a configuration is decided by what a single step leads to.

One lemma for each kind of instruction restates the second fact for code whose instructions are
known.
-/
import Mathlib
import PatternSampler.Proofs.Program.Copies

namespace PatternSampler

namespace Program

/-! ## Runs -/

/-- A step may lead from one configuration to another. -/
def Follows (p : Program) (input : Array Char) (c d : Config) : Prop :=
  p.step input c = .next d ∨ (∃ e, p.step input c = .fork d e) ∨ ∃ e, p.step input c = .fork e d

/-- Some run of exactly `n` steps leads to an accepting configuration. -/
def AcceptsIn (p : Program) (input : Array Char) : (n : ℕ) → Config → Prop
  | 0, c => p.step input c = .accept
  | n + 1, c => ∃ d, p.Follows input c d ∧ AcceptsIn p input n d

/-- Some run leads to an accepting configuration. -/
def Accepts (p : Program) (input : Array Char) (c : Config) : Prop :=
  ∃ n, p.AcceptsIn input n c

variable {p : Program} {input : Array Char}

/-- A step without a choice leads to one place. -/
theorem follows_of_next {c d e : Config} (h : p.step input c = .next d) :
    p.Follows input c e ↔ e = d := by
  simp only [Follows, h, Step.next.injEq, reduceCtorEq, exists_false, or_false]
  exact eq_comm

/-- A split leads to two places. -/
theorem follows_of_fork {c d₁ d₂ e : Config} (h : p.step input c = .fork d₁ d₂) :
    p.Follows input c e ↔ e = d₁ ∨ e = d₂ := by
  simp only [Follows, h, reduceCtorEq, Step.fork.injEq, false_or]
  constructor
  · rintro (⟨_, rfl, -⟩ | ⟨_, -, rfl⟩)
    · exact Or.inl rfl
    · exact Or.inr rfl
  · rintro (rfl | rfl)
    · exact Or.inl ⟨d₂, rfl, rfl⟩
    · exact Or.inr ⟨d₁, rfl, rfl⟩

/-- No step leads on from an accepting or a failing configuration. -/
theorem not_follows_of_stuck {c e : Config}
    (h : p.step input c = .accept ∨ p.step input c = .fail) : ¬ p.Follows input c e := by
  rcases h with h | h <;> simp [Follows, h]

/-- A run can be put in front of an accepting one. -/
theorem AcceptsIn.of_follows {c d : Config} {n : ℕ} (step : p.Follows input c d)
    (run : p.AcceptsIn input n d) : p.AcceptsIn input (n + 1) c :=
  ⟨d, step, run⟩

/-! ## The search -/

/-- **The search is exact up to its budget.**  It succeeds exactly if one of its runs accepts within
the number of steps that it may still make. -/
theorem search_eq_true_iff (runs : List (ℕ × Config)) :
    p.search input runs = true ↔
      ∃ run ∈ runs, ∃ n < run.1, p.AcceptsIn input n run.2 := by
  induction runs using Program.search.induct p input with
  | case1 => simp [search]
  | case2 c others ih =>
    rw [search, ih]
    simp
  | case3 steps c others h =>
    rw [search, h]
    simp only [true_iff]
    exact ⟨(steps + 1, c), List.mem_cons_self, 0, Nat.succ_pos steps, h⟩
  -- a run that fails is dropped, and it could not have accepted
  | case4 steps c others h ih =>
    rw [search, h]
    simp only [ih, List.mem_cons, exists_eq_or_imp, iff_or_self]
    rintro ⟨n, -, run⟩
    cases n with
    | zero => cases h.symm.trans run
    | succ n => exact absurd run.choose_spec.1 (not_follows_of_stuck (Or.inr h))
  -- a run that goes on has one step less to make
  | case5 steps c others d h ih =>
    rw [search, h]
    simp only [ih, List.mem_cons, exists_eq_or_imp]
    refine or_congr_left ⟨?_, ?_⟩
    · rintro ⟨n, lt, run⟩
      exact ⟨n + 1, Nat.succ_lt_succ lt, run.of_follows ((follows_of_next h).2 rfl)⟩
    · rintro ⟨n, lt, run⟩
      cases n with
      | zero => cases h.symm.trans run
      | succ n =>
        obtain ⟨e, step, run⟩ := run
        rw [follows_of_next h] at step
        exact ⟨n, Nat.lt_of_succ_lt_succ lt, step ▸ run⟩
  -- a run that forks is replaced by both of its continuations
  | case6 steps c others d₁ d₂ h ih =>
    rw [search, h]
    simp only [ih, List.mem_cons, exists_eq_or_imp]
    rw [← or_assoc]
    refine or_congr_left ⟨?_, ?_⟩
    · rintro (⟨n, lt, run⟩ | ⟨n, lt, run⟩)
      · exact ⟨n + 1, Nat.succ_lt_succ lt, run.of_follows ((follows_of_fork h).2 (Or.inl rfl))⟩
      · exact ⟨n + 1, Nat.succ_lt_succ lt, run.of_follows ((follows_of_fork h).2 (Or.inr rfl))⟩
    · rintro ⟨n, lt, run⟩
      cases n with
      | zero => cases h.symm.trans run
      | succ n =>
        obtain ⟨e, step, run⟩ := run
        rcases (follows_of_fork h).1 step with rfl | rfl
        · exact Or.inl ⟨n, Nat.lt_of_succ_lt_succ lt, run⟩
        · exact Or.inr ⟨n, Nat.lt_of_succ_lt_succ lt, run⟩

/-! ## Single steps -/

/-- Acceptance from a configuration is decided by what a single step leads to. -/
theorem accepts_iff_step (c : Config) :
    p.Accepts input c ↔
      p.step input c = .accept ∨ ∃ d, p.Follows input c d ∧ p.Accepts input d := by
  constructor
  · rintro ⟨n, run⟩
    cases n with
    | zero => exact Or.inl run
    | succ n =>
      obtain ⟨d, step, run⟩ := run
      exact Or.inr ⟨d, step, n, run⟩
  · rintro (h | ⟨d, step, n, run⟩)
    · exact ⟨0, h⟩
    · exact ⟨n + 1, run.of_follows step⟩

/-- A step without a choice does not count for whether there is an accepting run. -/
theorem accepts_of_next {c d : Config} (h : p.step input c = .next d) :
    p.Accepts input c ↔ p.Accepts input d := by
  rw [accepts_iff_step, h]
  simp [follows_of_next h]

/-- Behind a split either way may lead to an accepting run. -/
theorem accepts_of_fork {c d₁ d₂ : Config} (h : p.step input c = .fork d₁ d₂) :
    p.Accepts input c ↔ p.Accepts input d₁ ∨ p.Accepts input d₂ := by
  rw [accepts_iff_step, h]
  simp [follows_of_fork h]

/-- No accepting run goes on from where a run fails. -/
theorem not_accepts_of_fail {c : Config} (h : p.step input c = .fail) :
    ¬ p.Accepts input c := by
  rw [accepts_iff_step, h]
  rintro (h' | ⟨d, step, -⟩)
  · cases h'
  · exact not_follows_of_stuck (Or.inr h) step

/-! ## Instructions -/

section Instructions

variable {pc pos : ℕ} {slots : Std.TreeMap ℕ ℕ}

/-- Only at the end of the input. -/
theorem accepts_accept (h : p.insts[pc]? = some .accept) :
    p.Accepts input ⟨pc, pos, slots⟩ ↔ pos = input.size := by
  by_cases done : pos = input.size
  · exact iff_of_true ⟨0, by simp [AcceptsIn, step, h, done]⟩ done
  · exact iff_of_false (not_accepts_of_fail (by simp [step, h, done])) done

/-- The character has to be there. -/
theorem accepts_char {x : Char} (h : p.insts[pc]? = some (.char x)) :
    p.Accepts input ⟨pc, pos, slots⟩ ↔
      input[pos]? = some x ∧ p.Accepts input ⟨pc + 1, pos + 1, slots⟩ := by
  by_cases found : input[pos]? = some x
  · rw [accepts_of_next (d := ⟨pc + 1, pos + 1, slots⟩) (by simp [step, h, found, Config.advance])]
    simp [found]
  · exact iff_of_false (not_accepts_of_fail (by simp [step, h, found])) (fun both => found both.1)

/-- The set has to accept the character. -/
theorem accepts_set {index : ℕ} {set : CharSet} (h : p.insts[pc]? = some (.set index))
    (listed : p.sets[index]? = some set) :
    p.Accepts input ⟨pc, pos, slots⟩ ↔
      (∃ x, input[pos]? = some x ∧ set.accepts x = true) ∧
        p.Accepts input ⟨pc + 1, pos + 1, slots⟩ := by
  rcases found : input[pos]? with _ | x
  · exact iff_of_false (not_accepts_of_fail (by simp [step, h, found])) (by simp)
  by_cases ok : set.accepts x = true
  · rw [accepts_of_next (d := ⟨pc + 1, pos + 1, slots⟩)
      (by simp [step, h, found, listed, ok, Config.advance])]
    simp [ok]
  · exact iff_of_false (not_accepts_of_fail (by simp [step, h, found, listed, ok])) (by simp [ok])

theorem accepts_jump {target : ℕ} (h : p.insts[pc]? = some (.jump target)) :
    p.Accepts input ⟨pc, pos, slots⟩ ↔ p.Accepts input ⟨target, pos, slots⟩ :=
  accepts_of_next (by simp [step, h])

/-- Either way. -/
theorem accepts_split {first second : ℕ} (h : p.insts[pc]? = some (.split first second)) :
    p.Accepts input ⟨pc, pos, slots⟩ ↔
      p.Accepts input ⟨first, pos, slots⟩ ∨ p.Accepts input ⟨second, pos, slots⟩ :=
  accepts_of_fork (by simp [step, h])

/-- The position is kept in the slot. -/
theorem accepts_save {slot : ℕ} (h : p.insts[pc]? = some (.save slot)) :
    p.Accepts input ⟨pc, pos, slots⟩ ↔ p.Accepts input ⟨pc + 1, pos, slots.insert slot pos⟩ :=
  accepts_of_next (by simp [step, h])

/-- Something has to have been read since the slot was written. -/
theorem accepts_progress {slot : ℕ} (h : p.insts[pc]? = some (.progress slot)) :
    p.Accepts input ⟨pc, pos, slots⟩ ↔
      slots[slot]? ≠ some pos ∧ p.Accepts input ⟨pc + 1, pos, slots⟩ := by
  by_cases idle : slots[slot]? = some pos
  · exact iff_of_false (not_accepts_of_fail (by simp [step, h, idle])) (fun both => both.1 idle)
  · rw [accepts_of_next (d := ⟨pc + 1, pos, slots⟩) (by simp [step, h, idle, Config.advance])]
    simp [idle]

/-- The text of the group has to be there once more. -/
theorem accepts_backref {group : ℕ} (h : p.insts[pc]? = some (.backref group)) :
    p.Accepts input ⟨pc, pos, slots⟩ ↔
      ∃ start stop, slots[p.startSlot group]? = some start ∧ slots[p.stopSlot group]? = some stop ∧
        (start ≤ stop ∧ repeats input start stop pos = true) ∧
          p.Accepts input ⟨pc + 1, pos + (stop - start), slots⟩ := by
  rcases first : slots[p.startSlot group]? with _ | start
  · exact iff_of_false (not_accepts_of_fail (by simp [step, h, first])) (by simp)
  rcases second : slots[p.stopSlot group]? with _ | stop
  · exact iff_of_false (not_accepts_of_fail (by simp [step, h, first, second])) (by simp)
  by_cases again : start ≤ stop ∧ repeats input start stop pos = true
  · rw [accepts_of_next (d := ⟨pc + 1, pos + (stop - start), slots⟩)
      (by simp [step, h, first, second, again, Config.advance])]
    simp [again]
  · exact iff_of_false (not_accepts_of_fail (by simp [step, h, first, second, again]))
      (by rintro ⟨_, _, ⟨⟩, ⟨⟩, both, -⟩; exact again both)

end Instructions

/-- The text between two positions of the input is there once more at a third position. -/
theorem repeats_iff {chars : List Char} {start stop pos : ℕ} (le : start ≤ stop)
    (inside : stop ≤ chars.length) (within : pos ≤ chars.length) :
    repeats chars.toArray start stop pos = true ↔ chars.extract start stop <+: chars.drop pos := by
  have length : (chars.extract start stop).length = stop - start := by
    rw [List.extract_eq_take_drop, List.length_take, List.length_drop]
    omega
  rw [List.prefix_iff_eq_take, length]
  simp only [repeats, Bool.and_eq_true, decide_eq_true_eq, beq_iff_eq, List.size_toArray,
    List.extract_toArray, List.extract_eq_take_drop, Array.mk.injEq, Nat.add_sub_cancel_left]
  constructor
  · exact fun h => h.2
  · intro h
    have := congrArg List.length h
    rw [← List.extract_eq_take_drop, length, List.length_take, List.length_drop] at this
    exact ⟨by omega, h⟩

end Program

end PatternSampler
