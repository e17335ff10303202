/-
# Matching programs

A program decides whether it accepts a whole string.  Its instructions read characters, go on at
other instructions, and keep positions in numbered slots.  Where a program splits, either way may be
taken.

* `Inst` is the type of instructions, `Program` that of programs.
* `slotLimit` says where the numbers of slots start again from zero.
-/
import PatternSampler.CharSet.Basic

namespace PatternSampler

/-- An instruction. -/
inductive Inst where
  /-- Reads a given character. -/
  | char (c : Char)
  /-- Reads a character that a set accepts. -/
  | set (index : Nat)
  /-- Accepts at the end of the input. -/
  | accept
  /-- Goes on elsewhere. -/
  | jump (target : Nat)
  /-- Goes on at either of two places, at the first one first. -/
  | split (first second : Nat)
  /-- Keeps the position in a slot. -/
  | save (slot : Nat)
  /-- Reads the text between the two positions kept for a group. -/
  | backref (group : Nat)
  /-- Goes on only if the position differs from the one in a slot. -/
  | progress (slot : Nat)
  /-- Does nothing. -/
  | nop
deriving DecidableEq

/-- A program. -/
structure Program where
  /-- The instructions, of which the first is carried out first. -/
  insts : Array Inst
  /-- The sets that instructions refer to. -/
  sets : Array CharSet
  /-- The greatest number of a capturing group. -/
  groupCount : Nat
  /-- How many slots there are: two for each group from zero on, then one for each loop. -/
  slotCount : Nat
deriving DecidableEq

/-- Numbers of slots have 64 bits, and behind the last one they start again from zero.  Only a
program made up of `count` things, more than 64 bits can number, has wider ones; no memory holds
such a program. -/
def slotLimit (count : Nat) : Nat :=
  max UInt64.size (count + 1)

namespace Program

/-- The slot for where a group begins. -/
def startSlot (p : Program) (group : Nat) : Nat :=
  2 * group % slotLimit p.slotCount

/-- The slot for where a group ends. -/
def stopSlot (p : Program) (group : Nat) : Nat :=
  (2 * group + 1) % slotLimit p.slotCount

end Program

end PatternSampler
