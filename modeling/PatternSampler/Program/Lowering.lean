/-
# From patterns to programs

The program of a pattern is put together from the instructions of its parts.  Where an instruction
refers to a place that the code has yet to reach, one that does nothing stands in for it until then.

* `Code.addOptional`, `Code.addChoice`, `Code.addLoop`, `Code.addCaptured` add code around code.
* `Expr.emit` adds the instructions of an expression.
* `Tree.program` is the program of a whole pattern.
-/
import PatternSampler.Program.Basic
import PatternSampler.Tree.Expr

namespace PatternSampler

/-- A program under construction. -/
structure Code where
  /-- The instructions so far. -/
  insts : Array Inst := #[]
  /-- The sets so far, each with the node that it comes from. -/
  sets : Array (Nat × CharSet) := #[]
  /-- The first slot that is still free. -/
  nextSlot : Nat
  /-- Numbers of slots start again from zero here; if this is zero, they never do. -/
  modulus : Nat

namespace Code

/-- Where the next instruction will stand. -/
def here (c : Code) : Nat :=
  c.insts.size

/-- Adds an instruction. -/
def add (inst : Inst) (c : Code) : Code :=
  { c with insts := c.insts.push inst }

/-- Puts an instruction in the place of another one. -/
def patch (place : Nat) (inst : Inst) (c : Code) : Code :=
  { c with insts := c.insts.setIfInBounds place inst }

/-- Adds an instruction for each character of a text. -/
def addChars (chars : List Char) (c : Code) : Code :=
  { c with insts := c.insts ++ chars.map Inst.char }

/-- Adds an instruction that reads a character of the set of a node.  The set of each node is kept
once. -/
def addSet (id : Nat) (set : CharSet) (c : Code) : Code :=
  match c.sets.findIdx? (·.1 == id) with
  | some index => c.add (.set index)
  | none => { c with sets := c.sets.push (id, set), insts := c.insts.push (.set c.sets.size) }

/-- Adds an instruction that keeps the position in a slot. -/
def addSave (slot : Nat) (c : Code) : Code :=
  c.add (.save (slot % c.modulus))

/-- Gives out the first free slot. -/
def takeSlot (c : Code) : Code :=
  { c with nextSlot := (c.nextSlot + 1) % c.modulus }

/-- Adds a part between two instructions that keep where it begins and ends. -/
def addCaptured (number : Nat) (body : Code → Code) (c : Code) : Code :=
  (body (c.addSave (2 * number))).addSave (2 * number + 1)

/-- Does something to the code `count` times. -/
def times (body : Code → Code) : (count : Nat) → Code → Code
  | 0, c => c
  | count + 1, c => times body count (body c)

/-- Adds a part that may be left out: a split in front of it leads to it or past it. -/
def addOptional (body : Code → Code) (c : Code) : Code :=
  let split := c.here
  let c := c.add .nop
  let start := c.here
  let c := body c
  c.patch split (.split start c.here)

/-- Adds two parts to choose from: a split in front of the first one leads to either, and a jump
takes the first one past the second. -/
def addChoice (first second : Code → Code) (c : Code) : Code :=
  let split := c.here
  let c := c.add .nop
  let start := c.here
  let c := first c
  let jump := c.here
  let c := c.add .nop
  let c := second (c.patch split (.split start c.here))
  c.patch jump (.jump c.here)

/-- Adds a part that may be carried out any number of times.  A slot of its own makes sure that each
time reads something, so that the loop comes to an end. -/
def addLoop (body : Code → Code) (c : Code) : Code :=
  let slot := c.nextSlot
  let split := c.here
  let c := c.takeSlot.add .nop
  let start := c.here
  let c := body (c.add (.save slot))
  let c := (c.add (.progress slot)).add (.jump split)
  c.patch split (.split start c.here)

/-- Adds a part as often as the bounds demand and allow. -/
def addRepeated (bounds : Bounds) (body : Code → Code) (c : Code) : Code :=
  let c := c.times body bounds.least
  match bounds.most with
  | none => c.addLoop body
  | some most => c.times (addOptional body) (most - bounds.least)

/-- The program of code for groups with numbers up to `groups`: behind the code stands an
instruction that accepts. -/
def finish (groups : Nat) (c : Code) : Program where
  insts := c.insts.push .accept
  sets := c.sets.map Prod.snd
  groupCount := groups
  slotCount := c.nextSlot

end Code

/-- How many loops the code of a repeated part has, if the code of the part has `own`. -/
def Bounds.loopCount (b : Bounds) (own : Nat) : Nat :=
  match b.most with
  | none => b.least * own + (own + 1)
  | some most => b.least * own + (most - b.least) * own

namespace Expr

mutual

/-- Adds the instructions for an expression.

A repeated text repeats only its last character.  A backreference to a group that keeps no text
stands for its target. -/
def emit : Expr → Code → Code
  | text _ chars, c => c.addChars chars
  | set id s, c => c.addSet id s
  | concat _ parts, c => emitAll parts c
  | alternation _ branches, c => emitAny branches c
  | repetition _ (text _ (first :: others)) bounds _, c =>
    (c.addChars (first :: others).dropLast).addRepeated bounds
      (Code.add (.char ((first :: others).getLast (List.cons_ne_nil first others))))
  | repetition _ body bounds _, c => c.addRepeated bounds body.emit
  | group _ body (some number), c => c.addCaptured number body.emit
  | group _ body none, c => body.emit c
  | backref _ (group _ _ (some number)), c => c.add (.backref number)
  | backref _ target, c => target.emit c

/-- Adds the instructions for expressions one after the other. -/
def emitAll : List Expr → Code → Code
  | [], c => c
  | e :: es, c => emitAll es (e.emit c)

/-- Adds the instructions for a choice of expressions. -/
def emitAny : List Expr → Code → Code
  | [], c => c
  | [e], c => e.emit c
  | e :: e' :: es, c => c.addChoice e.emit (emitAny (e' :: es))

end

mutual

/-- How many loops the code of an expression has. -/
def loopCount : Expr → Nat
  | text _ _ => 0
  | set _ _ => 0
  | concat _ parts => loopCountAll parts
  | alternation _ branches => loopCountAll branches
  | repetition _ (text _ (_ :: _)) bounds _ => bounds.loopCount 0
  | repetition _ body bounds _ => bounds.loopCount body.loopCount
  | group _ body _ => body.loopCount
  | backref _ (group _ _ (some _)) => 0
  | backref _ target => target.loopCount

/-- How many loops the code of several expressions has. -/
def loopCountAll : List Expr → Nat
  | [] => 0
  | e :: es => e.loopCount + loopCountAll es

end

/-- The program of an expression whose groups have numbers up to `groups`.  Loops have the slots
behind those of all groups, and numbers of slots start again from zero at `modulus`. -/
def program (e : Expr) (groups modulus : Nat) : Program :=
  (e.emit { nextSlot := 2 * (groups + 1) % modulus, modulus }).finish groups

end Expr

namespace Tree

/-- Where the numbers of slots in the program of a pattern start again from zero. -/
def slotModulus (t : Tree) (root : Nat) : Nat :=
  slotLimit (2 * (t.size + 1) + (t.expr root).loopCount)

/-- The program of the pattern whose root is given. -/
def program (t : Tree) (root : Nat) : Program :=
  (t.expr root).program t.captureCount (t.slotModulus root)

end Tree

end PatternSampler
