/-
# Unfolded patterns

The expression of a node is the node with the expressions of the nodes it refers to put in their
place.  A node that is referred to twice occurs twice in the expression, each time with its own
place in the tree, and so does the target of a backreference.

* `Expr` is the type of expressions, `Expr.induct` induction over them.
* `Tree.expr` is the expression of a node.
-/
import PatternSampler.Tree.Basic

namespace PatternSampler

/-- A pattern with nothing left to look up; each part knows its place in the tree. -/
inductive Expr where
  /-- A fixed text. -/
  | text (id : Nat) (chars : List Char)
  /-- One character of a set. -/
  | set (id : Nat) (set : CharSet)
  /-- The parts one after the other. -/
  | concat (id : Nat) (parts : List Expr)
  /-- One of the branches. -/
  | alternation (id : Nat) (branches : List Expr)
  /-- The body several times. -/
  | repetition (id : Nat) (body : Expr) (bounds : Bounds) (sameText : Bool)
  /-- A part in parentheses. -/
  | group (id : Nat) (body : Expr) (capture : Option Nat)
  /-- The text of a group once more. -/
  | backref (id : Nat) (target : Expr)

namespace Expr

instance : Inhabited Expr := ⟨text 0 []⟩

/-- The place of an expression in the tree. -/
def id : Expr → Nat
  | text id _ | set id _ | concat id _ | alternation id _ | repetition id _ _ _ | group id _ _
  | backref id _ => id

/-- Induction over expressions, with the hypothesis for every part of a list of parts. -/
theorem induct {motive : Expr → Prop}
    (text : ∀ id chars, motive (text id chars))
    (set : ∀ id s, motive (set id s))
    (concat : ∀ id parts, (∀ e ∈ parts, motive e) → motive (concat id parts))
    (alternation : ∀ id branches, (∀ e ∈ branches, motive e) → motive (alternation id branches))
    (repetition : ∀ id body bounds same, motive body → motive (repetition id body bounds same))
    (group : ∀ id body capture, motive body → motive (group id body capture))
    (backref : ∀ id target, motive target → motive (backref id target)) (e : Expr) :
    motive e :=
  @Expr.rec motive (fun es => ∀ e ∈ es, motive e)
    text set concat alternation repetition group backref
    (fun _ h => absurd h List.not_mem_nil)
    (fun _ _ head tail _ h => by
      rcases List.mem_cons.1 h with rfl | h
      · exact head
      · exact tail _ h)
    e

end Expr

/-- The expression of a shape at the place after those whose expressions are given. -/
def Shape.expr (earlier : Array Expr) : Shape → Expr
  | text chars => .text earlier.size chars
  | set s => .set earlier.size s
  | concat parts => .concat earlier.size (parts.map (earlier.getD · default))
  | alternation branches => .alternation earlier.size (branches.map (earlier.getD · default))
  | repetition body bounds same =>
    .repetition earlier.size (earlier.getD body default) bounds same
  | group body _ capture => .group earlier.size (earlier.getD body default) capture
  | backref target => .backref earlier.size (earlier.getD target default)

namespace Tree

/-- The expressions of all nodes, in the order of the nodes. -/
def exprs (t : Tree) : Array Expr :=
  t.nodes.foldl (fun earlier node => earlier.push (node.shape.expr earlier)) #[]

/-- The expression of a node. -/
def expr (t : Tree) (id : Nat) : Expr :=
  t.exprs.getD id default

end Tree

end PatternSampler
