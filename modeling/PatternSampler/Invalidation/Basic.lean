/-
# Choosing what to invalidate

Of the marked nodes those are eligible that can produce a text they do not stand for.  One of them
is chosen, each with the same chance however often and in whatever order it was marked.

A text becomes invalid where the chosen node breaks its own rule, provided that the text really goes
through that node.  The reserved path lists the ancestors of the chosen node, each with the child
through which the path continues: an alternation on it takes that child, and a repetition on it
repeats at least once.

* `Tree.eligible` lists the eligible nodes in ascending order, each once; `Tree.selectInvalid`
  chooses one.
* `Tree.reserve` is the path to a node.
* `Route` is what a generation is told of the node to break.
-/
import PatternSampler.Random.Source
import PatternSampler.Tree.Basic

namespace PatternSampler

/-! ## Eligible nodes -/

namespace Tree

/-- The eligible nodes among the candidates, in ascending order and without repetition. -/
def eligible (t : Tree) (candidates : List Nat) : List Nat :=
  ((candidates.filter t.isInvalidatable).mergeSort (· ≤ ·)).eraseReps

/-- Chooses an eligible node; `pattern` is named in the error where there is none, and then nothing
is drawn. -/
def selectInvalid {σ : Type} [RandomSource σ] (t : Tree) (candidates : List Nat)
    (pattern : String) : Sampling σ Nat := do
  let eligible := t.eligible candidates
  if eligible.isEmpty then throw (.nothingToInvalidate pattern)
  return eligible.getD (← draw (.below eligible.length)) 0

end Tree

/-! ## Reserved paths -/

/-- The ancestors of a node, nearest first, each with its child on the way to the node. -/
abbrev ReservedPath := List (Nat × Nat)

namespace ReservedPath

/-- The child through which the path continues below a node. -/
def branch? (path : ReservedPath) (id : Nat) : Option Nat :=
  path.lookup id

/-- Whether a node lies on the path. -/
def reserves (path : ReservedPath) (id : Nat) : Bool :=
  (path.branch? id).isSome

end ReservedPath

/-- The path to a node, which is not itself on it.  Owners come after the nodes that they own, so
the way up ends. -/
def Tree.reserve (t : Tree) (id : Nat) : ReservedPath :=
  match t.parent? id with
  | none => []
  | some owner => if id < owner ∧ owner < t.size then (owner, id) :: t.reserve owner else []
termination_by t.size - id

/-- Which node breaks its own rule, if any, and the path to it. -/
structure Route where
  /-- The node that breaks its own rule. -/
  invalid : Option Nat := none
  /-- The path to it. -/
  path : ReservedPath := []

/-- The route to a node. -/
def Route.toward (t : Tree) (id : Nat) : Route :=
  { invalid := some id, path := t.reserve id }

/-- Whether a node is the one that breaks its own rule. -/
def Route.breaks (r : Route) (id : Nat) : Bool :=
  r.invalid == some id

end PatternSampler
