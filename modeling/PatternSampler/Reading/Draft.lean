/-
# Patterns under construction

What is known of a pattern while it is being read: its nodes so far, which of them are marked for
invalidation, and which groups have been opened and closed.  A draft survives a fault, and several
patterns can be read into one draft.

* `Reader` is the type of readers that work on a draft.
* `Draft.plant` adds a node, `Draft.openGroup` and `Draft.closeGroup` keep the account of groups.
* `Compiled` is a pattern that has been read to its end.
-/
import PatternSampler.Reading.Atom
import PatternSampler.Tree.Basic

namespace PatternSampler

/-- A pattern that has been read. -/
structure Compiled where
  /-- The nodes of the pattern. -/
  tree : Tree
  /-- The node that stands for the whole pattern. -/
  root : Nat
  /-- The marked nodes in the order in which they were marked; a node may be marked twice. -/
  candidates : List Nat
  /-- Whether the pattern has an invalidation marker at all. -/
  hasMarker : Bool
deriving DecidableEq

/-- A pattern under construction. -/
structure Draft where
  /-- The nodes so far. -/
  tree : Tree := {}
  /-- Whether nodes that are added now are marked. -/
  marking : Bool := false
  /-- Whether a marker has been read. -/
  hasMarker : Bool := false
  /-- The marked nodes in the order in which they were marked. -/
  candidates : Array Nat := #[]
  /-- How many numbered groups have been opened. -/
  opened : Nat := 0
  /-- The numbered groups that have been closed, each with its number. -/
  numbered : Array (Nat × Nat) := #[]
  /-- The named groups that have been closed, each with its name. -/
  named : Array (String × Nat) := #[]
deriving DecidableEq

namespace Draft

/-- Adds a node and, while marking is on, marks it. -/
def plant (d : Draft) (shape : Shape) : Draft :=
  { d with
    tree := d.tree.adopt shape
    candidates := if d.marking then d.candidates.push d.tree.size else d.candidates }

/-- Turns marking on because a marker was read. -/
def mark (d : Draft) : Draft :=
  { d with marking := true, hasMarker := true }

/-- Marks all nodes from `first` on because a marker was read behind them. -/
def markFrom (d : Draft) (first : Nat) : Draft :=
  { d with
    hasMarker := true
    candidates := d.candidates ++ Array.range' first (d.tree.size - first) }

/-- The closed group of a number: a numbered one, or a named one, which are counted on behind all
numbered groups opened so far. -/
def groupOfNumber? (d : Draft) (number : Nat) : Option Nat :=
  match d.numbered.find? (·.1 == number) with
  | some (_, id) => some id
  | none =>
    if d.opened < number then d.named[number - (d.opened + 1)]?.map Prod.snd else none

/-- The first closed group of a name. -/
def groupOfName? (d : Draft) (name : String) : Option Nat :=
  (d.named.find? (·.1 == name)).map Prod.snd

/-- Numbers the named groups behind the numbered ones and forgets all that is only needed while
reading. -/
def finish (d : Draft) (root : Nat) : Compiled where
  tree := (d.named.toList.zipIdx (d.opened + 1)).foldl
    (fun tree (group, number) => tree.setCapture group.2 number) d.tree
  root := root
  candidates := d.candidates.toList
  hasMarker := d.hasMarker

end Draft

namespace Reading

/-- A reader that works on a draft, which also a fault leaves as it is. -/
abbrev Reader := EStateM Fault Draft

/-- Adds a node and returns its place. -/
def plant (shape : Shape) : Reader Nat :=
  modifyGet fun d => (d.tree.size, d.plant shape)

/-- Takes note of a group that opens; the result is its number, if it has one. -/
def openGroup : GroupKind → Reader (Option Nat)
  | .numbered => modifyGet fun d => (some (d.opened + 1), { d with opened := d.opened + 1 })
  | .named _ | .plain => pure none

/-- Adds the node of a group that closes. -/
def closeGroup (kind : GroupKind) (number : Option Nat) (body : Nat) : Reader Nat := do
  match kind, number with
  | .named name, _ =>
    let id ← plant (.group body (some name) none)
    modify fun d => { d with named := d.named.push (name, id) }
    return id
  | _, some n =>
    let id ← plant (.group body none (some n))
    modify fun d => { d with numbered := d.numbered.push (n, id) }
    return id
  | _, none => plant (.group body none none)

end Reading

end PatternSampler
