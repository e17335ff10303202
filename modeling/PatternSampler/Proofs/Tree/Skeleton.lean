/-
# Skeletons

What is left of an expression if its places in the tree are forgotten.  Only sets keep something of
theirs, how many sets stand before them, so that two of them can still be told apart.

* `Expr.skeleton` : an expression without the places of its nodes.
* `Expr.row` and `Expr.oneOf` : parts one after the other, one of several branches.
* `Tree.rank` : how many sets stand before a place.
-/
import Mathlib
import PatternSampler.Tree.Expr

namespace PatternSampler

namespace Expr

mutual

/-- An expression without the places of its nodes.  A set gets the rank of its place, and of a
backreference to a group that captures only the number of the group is left. -/
def skeleton (rank : ℕ → ℕ) : Expr → Expr
  | text _ chars => text 0 chars
  | set id s => set (rank id) s
  | concat _ parts => concat 0 (skeletonAll rank parts)
  | alternation _ branches => alternation 0 (skeletonAll rank branches)
  | repetition _ body bounds same => repetition 0 (body.skeleton rank) bounds same
  | group _ body capture => group 0 (body.skeleton rank) capture
  | backref _ (group _ _ (some number)) => backref 0 (group 0 (text 0 []) (some number))
  | backref _ target => backref 0 (target.skeleton rank)

/-- Several expressions without the places of their nodes. -/
def skeletonAll (rank : ℕ → ℕ) : List Expr → List Expr
  | [] => []
  | e :: es => e.skeleton rank :: skeletonAll rank es

end

theorem skeletonAll_eq_map (rank : ℕ → ℕ) (es : List Expr) :
    skeletonAll rank es = es.map (skeleton rank) := by
  induction es with
  | nil => rfl
  | cons e es ih => rw [skeletonAll, ih, List.map_cons]

/-- Expressions one after the other: nothing for none of them, and a single one as it is. -/
def row : List Expr → Expr
  | [] => text 0 []
  | [e] => e
  | es => concat 0 es

/-- One of some expressions, of which there is at least the first. -/
def oneOf (first : Expr) : List Expr → Expr
  | [] => first
  | more => alternation 0 (first :: more)

/-- What is left of a backreference to the group of a number. -/
def again (number : ℕ) : Expr :=
  backref 0 (group 0 (text 0 []) (some number))

end Expr

/-- Whether a shape is a set. -/
def Shape.isSet : Shape → Bool
  | set _ => true
  | _ => false

/-- How many sets stand before a place. -/
def Tree.rank (t : Tree) (place : ℕ) : ℕ :=
  Nat.count (fun id => (t.shape? id).any Shape.isSet = true) place

end PatternSampler
