/-
# Running programs

A run of a program carries its instructions out one after the other.  Where the program splits, the
search goes one way and leaves the other one behind; when a run fails, it goes back to the way left
behind last.  All runs share one array of slots.  Each write to it is noted together with what it
replaced, and on the way back the writes made since the split are undone.

* `Program.exec` carries out one instruction, `Search.resume` goes back.
* `Program.loop` is the search, for as many rounds as it takes.
* `Program.run` is the search within a budget, `Program.fullMatch` its answer for a whole string.

A run that comes back to where it has been with the same slots gains nothing.  As long as nothing is
read, each slot changes at most once, so a run without repetition has no more steps than
`Program.budget` says, and the search gives up a run that has more.
-/
import PatternSampler.Program.Basic

namespace PatternSampler

/-- A way left behind where a program splits. -/
structure Branch where
  /-- The instruction that comes next. -/
  pc : Nat
  /-- How much of the input had been read. -/
  pos : Nat
  /-- How many writes had been noted. -/
  mark : Nat

/-- Where the search stands. -/
structure Search where
  /-- The instruction that comes next. -/
  pc : Nat := 0
  /-- How much of the input has been read. -/
  pos : Nat := 0
  /-- The position kept in each slot, if there is one. -/
  slots : Array (Option Nat)
  /-- The slots that have been written, each with what it held before, the latest last. -/
  undo : Array (Nat × Option Nat) := #[]
  /-- The ways left behind, the latest first. -/
  pending : List Branch := []

/-- What an instruction leads to. -/
inductive Effect where
  /-- The input is accepted. -/
  | accept
  /-- The run cannot go on from here. -/
  | fail (s : Search)
  /-- The run goes on. -/
  | next (s : Search)
  /-- The run goes on, and another way has been left behind. -/
  | fork (s : Search)
  /-- The instruction refers to a slot or a set that there is not, and the search breaks off. -/
  | stray

/-- How a search ends. -/
inductive Ending where
  /-- With an answer. -/
  | answer (found : Bool)
  /-- At an instruction that refers to a slot or a set that there is not. -/
  | stray
deriving DecidableEq

namespace Search

/-- The position kept in a slot. -/
def slot? (s : Search) (slot : Nat) : Option Nat :=
  s.slots.getD slot none

/-- The effect of an instruction that goes on with the next one, `read` characters further on. -/
def advance (s : Search) (read : Nat) : Effect :=
  .next { s with pc := s.pc + 1, pos := s.pos + read }

/-- Undoes the writes noted from `mark` on, the latest first. -/
def revert (undo : Array (Nat × Option Nat)) (mark : Nat) (slots : Array (Option Nat)) :
    Array (Option Nat) :=
  (undo.extract mark).foldr (fun write slots => slots.setIfInBounds write.1 write.2) slots

/-- Goes back to the latest way left behind and undoes the writes made since. -/
def resume (s : Search) : Option Search :=
  match s.pending with
  | [] => none
  | branch :: others =>
    some {
      pc := branch.pc
      pos := branch.pos
      slots := revert s.undo branch.mark s.slots
      undo := s.undo.shrink branch.mark
      pending := others }

end Search

namespace Program

/-- Whether the input has the text between two of its positions once more at a third one. -/
def repeats (input : Array Char) (start stop pos : Nat) : Bool :=
  pos + (stop - start) ≤ input.size &&
    input.extract start stop == input.extract pos (pos + (stop - start))

/-- Carries out one instruction. -/
def exec (p : Program) (input : Array Char) (s : Search) : Effect :=
  match p.insts[s.pc]? with
  | none => .fail s
  | some .accept => if s.pos = input.size then .accept else .fail s
  | some (.char expected) =>
    if input[s.pos]? = some expected then s.advance 1 else .fail s
  | some (.set index) =>
    match input[s.pos]?, p.sets[index]? with
    | none, _ => .fail s
    | some _, none => .stray
    | some found, some set => if set.accepts found then s.advance 1 else .fail s
  | some (.jump target) => .next { s with pc := target }
  | some (.split first second) =>
    .fork { s with pc := first, pending := ⟨second, s.pos, s.undo.size⟩ :: s.pending }
  | some (.save slot) =>
    if slot < s.slots.size then
      .next { s with
        pc := s.pc + 1
        slots := s.slots.setIfInBounds slot (some s.pos)
        undo := s.undo.push (slot, s.slot? slot) }
    else .stray
  | some (.progress slot) =>
    if slot < s.slots.size then
      if s.slot? slot = some s.pos then .fail s else s.advance 0
    else .stray
  | some (.backref group) =>
    if p.startSlot group < s.slots.size ∧ p.stopSlot group < s.slots.size then
      match s.slot? (p.startSlot group), s.slot? (p.stopSlot group) with
      | some start, some stop =>
        if start ≤ stop ∧ repeats input start stop s.pos then s.advance (stop - start)
        else .fail s
      | _, _ => .fail s
    else .stray
  | some .nop => s.advance 0

/-- How the search ends if it does so within a number of rounds. -/
def loop (p : Program) (input : Array Char) : (rounds : Nat) → Search → Option Ending
  | 0, _ => none
  | rounds + 1, s =>
    match p.exec input s with
    | .accept => some (.answer true)
    | .stray => some .stray
    | .fail s =>
      match s.resume with
      | none => some (.answer false)
      | some s => p.loop input rounds s
    | .next s => p.loop input rounds s
    | .fork s => p.loop input rounds s

/-! ## The search within a budget -/

/-- A number of steps that no run without repetition exceeds. -/
def budget (p : Program) (input : Array Char) : Nat :=
  p.insts.size * (p.slotCount + 1) * (input.size + 1) + 1

/-- A bound for the work that is left, if the present run and each way left behind may make so many
more steps. -/
def effort : (allowed : List Nat) → Nat
  | [] => 0
  | steps :: others => 1 <<< (2 * steps) + effort others

/-- There is less work left without the present run. -/
theorem effort_lt_cons (steps : Nat) (others : List Nat) :
    effort others < effort (steps :: others) := by
  have pos := Nat.two_pow_pos (2 * steps)
  rw [effort, Nat.one_shiftLeft]
  omega

/-- Two runs with a step less are less work than one. -/
theorem effort_fork_lt (steps : Nat) (others : List Nat) :
    effort (steps :: steps :: others) < effort ((steps + 1) :: others) := by
  have pos := Nat.two_pow_pos (2 * steps)
  simp only [effort, Nat.one_shiftLeft, Nat.mul_succ, Nat.pow_succ]
  omega

/-- Searches on; the list says how many steps the present run and each way left behind, the latest
first, may still make. -/
def run (p : Program) (input : Array Char) : (allowed : List Nat) → Search → Bool
  | [], _ => false
  | 0 :: others, s =>
    match s.resume with
    | none => false
    | some s => p.run input others s
  | (steps + 1) :: others, s =>
    match p.exec input s with
    | .accept => true
    | .stray => false
    | .fail s =>
      match s.resume with
      | none => false
      | some s => p.run input others s
    | .next s => p.run input (steps :: others) s
    | .fork s => p.run input (steps :: steps :: others) s
termination_by allowed => effort allowed
decreasing_by
  · exact effort_lt_cons 0 others
  · exact effort_lt_cons (steps + 1) others
  · exact Nat.lt_trans (effort_lt_cons steps (steps :: others)) (effort_fork_lt steps others)
  · exact effort_fork_lt steps others

/-- Where the search begins. -/
def start (p : Program) : Search :=
  { slots := Array.replicate p.slotCount none }

/-- Whether the program accepts the whole of a string. -/
def fullMatch (p : Program) (input : List Char) : Bool :=
  p.run input.toArray [p.budget input.toArray] p.start

end Program

end PatternSampler
