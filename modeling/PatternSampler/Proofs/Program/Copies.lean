/-
# Runs with slots of their own

A run of a program is a sequence of steps from one configuration to the next.  Where the program
splits, either way may be taken, and each run keeps its own slots, so nothing that one run does
concerns another one.

* `Program.step` is one step.
* `Program.search` follows runs one after the other, the latest alternative first.
* `Program.InRange` : a program refers to nothing that it does not have.
-/
import PatternSampler.Program.Search
import Std.Data.TreeMap

namespace PatternSampler

/-- Where a run stands. -/
structure Config where
  /-- The instruction that comes next. -/
  pc : Nat := 0
  /-- How much of the input has been read. -/
  pos : Nat := 0
  /-- The positions that have been kept. -/
  slots : Std.TreeMap Nat Nat := ∅

/-- What a step leads to. -/
inductive Step where
  /-- The input is accepted. -/
  | accept
  /-- The run cannot go on. -/
  | fail
  /-- The run goes on in one way. -/
  | next (c : Config)
  /-- The run goes on in either of two ways, of which the first is tried first. -/
  | fork (first second : Config)

/-- The step of a run that goes on with the next instruction, `read` characters further on. -/
def Config.advance (c : Config) (read : Nat) : Step :=
  .next { c with pc := c.pc + 1, pos := c.pos + read }

namespace Program

/-- One step of a run. -/
def step (p : Program) (input : Array Char) (c : Config) : Step :=
  match p.insts[c.pc]? with
  | none => .fail
  | some .accept => if c.pos = input.size then .accept else .fail
  | some (.char expected) =>
    if input[c.pos]? = some expected then c.advance 1 else .fail
  | some (.set index) =>
    match input[c.pos]?, p.sets[index]? with
    | some found, some set => if set.accepts found then c.advance 1 else .fail
    | _, _ => .fail
  | some (.jump target) => .next { c with pc := target }
  | some (.split first second) => .fork { c with pc := first } { c with pc := second }
  | some (.save slot) => .next { c with pc := c.pc + 1, slots := c.slots.insert slot c.pos }
  | some (.progress slot) => if c.slots[slot]? = some c.pos then .fail else c.advance 0
  | some (.backref group) =>
    match c.slots[p.startSlot group]?, c.slots[p.stopSlot group]? with
    | some start, some stop =>
      if start ≤ stop ∧ repeats input start stop c.pos then c.advance (stop - start)
      else .fail
    | _, _ => .fail
  | some .nop => c.advance 0

/-- Follows the first of a list of runs, each with the number of steps it may still make, and takes
up the others when it fails. -/
def search (p : Program) (input : Array Char) : List (Nat × Config) → Bool
  | [] => false
  | (0, _) :: others => p.search input others
  | (steps + 1, c) :: others =>
    match p.step input c with
    | .accept => true
    | .fail => p.search input others
    | .next c => p.search input ((steps, c) :: others)
    | .fork first second => p.search input ((steps, first) :: (steps, second) :: others)
termination_by runs => effort (runs.map Prod.fst)
decreasing_by
  · exact effort_lt_cons 0 _
  · exact effort_lt_cons (steps + 1) _
  · exact Nat.lt_trans (effort_lt_cons steps _) (effort_fork_lt steps _)
  · exact effort_fork_lt steps _

end Program

/-! ## What instructions refer to -/

/-- What an instruction refers to is there if there are so many sets and slots. -/
def Inst.InRange (sets slots : Nat) : Inst → Prop
  | .set index => index < sets
  | .save slot | .progress slot => slot < slots
  | .backref group => 2 * group + 1 < slots
  | .char _ | .accept | .jump _ | .split _ _ | .nop => True

instance (sets slots : Nat) : DecidablePred (Inst.InRange sets slots) := fun inst => by
  cases inst <;> unfold Inst.InRange <;> infer_instance

/-- As long as there are slots for a group, their numbers do not start again from zero. -/
theorem Program.groupSlots_eq {p : Program} {group : Nat} (lt : 2 * group + 1 < p.slotCount) :
    p.startSlot group = 2 * group ∧ p.stopSlot group = 2 * group + 1 := by
  have limit : p.slotCount < slotLimit p.slotCount :=
    Nat.lt_of_lt_of_le (Nat.lt_succ_self _) (Nat.le_max_right _ _)
  exact ⟨Nat.mod_eq_of_lt (by omega), Nat.mod_eq_of_lt (by omega)⟩

/-- All sets, slots and groups that the instructions of a program refer to exist.  Where an
instruction goes on does not count. -/
def Program.InRange (p : Program) : Prop :=
  ∀ inst ∈ p.insts, inst.InRange p.sets.size p.slotCount

instance (p : Program) : Decidable p.InRange :=
  inferInstanceAs (Decidable (∀ inst ∈ p.insts, inst.InRange p.sets.size p.slotCount))

theorem Program.InRange.saves {p : Program} (inRange : p.InRange) (slot : Nat)
    (mem : .save slot ∈ p.insts) : slot < p.slotCount :=
  inRange _ mem

end PatternSampler
