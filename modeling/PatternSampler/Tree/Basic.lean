/-
# Pattern trees

A pattern is kept as a list of nodes in the order of their creation.  A node refers to others by
their place in that list, always to earlier ones, and knows the node that owns it.

* `Shape` is what a node stands for, `Shape.children` are the nodes it owns and
  `Shape.references` all those it refers to.
* `Tree.push` adds a node, `Tree.adopt` adds it and makes it the owner of its children.
* `Tree.Ordered` says that all references lead to earlier nodes.
-/
import PatternSampler.CharSet.Basic

namespace PatternSampler

/-- How often a repeated part occurs: at least `least` and, where it is bounded, at most `most`
times. -/
structure Bounds where
  /-- The least number of times. -/
  least : Nat
  /-- The greatest number of times, if there is one. -/
  most : Option Nat
deriving DecidableEq

/-- What a node stands for. -/
inductive Shape where
  /-- A fixed text, empty for an anchor. -/
  | text (chars : List Char)
  /-- One character of a set. -/
  | set (set : CharSet)
  /-- The parts one after the other. -/
  | concat (parts : List Nat)
  /-- One of the branches. -/
  | alternation (branches : List Nat)
  /-- The body several times, with one and the same text each time if `sameText`. -/
  | repetition (body : Nat) (bounds : Bounds) (sameText : Bool)
  /-- A part in parentheses; `capture` is the number under which its text is kept. -/
  | group (body : Nat) (name : Option String) (capture : Option Nat)
  /-- The text of a group once more. -/
  | backref (target : Nat)
deriving DecidableEq

namespace Shape

instance : Inhabited Shape := ⟨text []⟩

/-- The nodes that a node owns.  A backreference owns none. -/
def children : Shape → List Nat
  | concat parts => parts
  | alternation branches => branches
  | repetition body _ _ | group body _ _ => [body]
  | text _ | set _ | backref _ => []

/-- The nodes that a node refers to. -/
def references : Shape → List Nat
  | backref target => [target]
  | shape => shape.children

/-- Whether a node can produce a text that it does not stand for. -/
def isInvalidatable : Shape → Bool
  | text chars => !chars.isEmpty
  | set s => s.isInvalidatable
  | repetition _ bounds _ => 0 < bounds.least || bounds.most.isSome
  | concat _ | alternation _ | group _ _ _ | backref _ => false

/-- The same shape with another capture number, if it is a group. -/
def withCapture (number : Nat) : Shape → Shape
  | group body name _ => group body name (some number)
  | shape => shape

/-- The capture number of a capturing group. -/
def capture? : Shape → Option Nat
  | group _ _ capture => capture
  | _ => none

end Shape

/-- A shape together with the node that owns it. -/
structure Node where
  /-- What the node stands for. -/
  shape : Shape
  /-- The node that owns it, if there is one yet. -/
  parent : Option Nat := none
deriving DecidableEq

/-- The nodes of a pattern in the order of their creation. -/
structure Tree where
  /-- The nodes, each at its own place. -/
  nodes : Array Node := #[]
deriving DecidableEq

namespace Tree

/-- How many nodes there are; also the place of the next one. -/
def size (t : Tree) : Nat :=
  t.nodes.size

/-- What the node at a place stands for. -/
def shape? (t : Tree) (id : Nat) : Option Shape :=
  t.nodes[id]?.map Node.shape

/-- The owner of the node at a place. -/
def parent? (t : Tree) (id : Nat) : Option Nat :=
  t.nodes[id]?.bind Node.parent

/-- Adds a node that nobody owns. -/
def push (t : Tree) (shape : Shape) : Tree :=
  { nodes := t.nodes.push { shape } }

/-- Makes one node the owner of another. -/
def setParent (t : Tree) (child owner : Nat) : Tree :=
  { nodes := t.nodes.modify child fun node => { node with parent := some owner } }

/-- Adds a node and makes it the owner of its children. -/
def adopt (t : Tree) (shape : Shape) : Tree :=
  shape.children.foldl (fun tree child => tree.setParent child t.size) (t.push shape)

/-- Gives a group its capture number. -/
def setCapture (t : Tree) (id : Nat) (number : Nat) : Tree :=
  { nodes := t.nodes.modify id fun node => { node with shape := node.shape.withCapture number } }

/-- Whether the node at a place can produce a text that it does not stand for. -/
def isInvalidatable (t : Tree) (id : Nat) : Bool :=
  (t.shape? id).any Shape.isInvalidatable

/-- The greatest capture number in the tree, zero if there is none. -/
def captureCount (t : Tree) : Nat :=
  t.nodes.foldl (fun greatest node => max greatest (node.shape.capture?.getD 0)) 0

/-- Every node refers to earlier nodes only. -/
def Ordered (t : Tree) : Prop :=
  ∀ id shape, t.shape? id = some shape → ∀ r ∈ shape.references, r < id

end Tree

end PatternSampler
