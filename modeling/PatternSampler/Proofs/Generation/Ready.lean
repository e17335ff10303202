/-
# Groups that have a text

A backreference that replays the text of its group needs that text to be there, and to be the text
that the same group has captured in a match.  Both hold if no choice lies between the group and the
backreference.  A group is known by its place together with its number.

* `Expr.settled` : the groups that have surely produced a text behind an expression.
* `Expr.Ready` : every backreference finds its group among those that are known.
-/
import PatternSampler.Generation.Basic
import PatternSampler.Proofs.Matching.Filling

namespace PatternSampler

/-- The place of a capturing group and its number. -/
abbrev GroupKey := ℕ × ℕ

namespace Expr

mutual

/-- The groups that have surely produced a text once an expression has been gone through.  A choice
settles nothing, and neither does a repetition that may be left out.  One that goes on without
bounds must not end with an occurrence that reads nothing, since the matcher would pass that over.
-/
def settled : Expr → Set GroupKey
  | concat _ parts => settledAll parts
  | repetition _ body bounds _ =>
    {key | key ∈ body.settled ∧ 0 < bounds.least ∧ (bounds.most.isSome ∨ body.fills)}
  | group id body (some n) => insert (id, n) body.settled
  | group _ body none => body.settled
  | text _ _ | set _ _ | alternation _ _ | backref _ _ => ∅

/-- The groups that have surely produced a text behind several expressions. -/
def settledAll : List Expr → Set GroupKey
  | [] => ∅
  | e :: es => e.settled ∪ settledAll es

end

/-- Each of several expressions is as it should be, given what is known before it. -/
inductive InTurn (R : Set GroupKey → Expr → Prop) : Set GroupKey → List Expr → Prop
  | nil {known : Set GroupKey} : InTurn R known []
  | cons {known : Set GroupKey} {e : Expr} {es : List Expr} :
      R known e → InTurn R (known ∪ e.settled) es → InTurn R known (e :: es)

/-- Texts are replayed, and every backreference repeats a group that is known; no group that is
known occurs again, and every alternation has a branch. -/
inductive Ready (settings : Settings) : Set GroupKey → Expr → Prop
  | text {known : Set GroupKey} {id : ℕ} {chars : List Char} : Ready settings known (text id chars)
  | set {known : Set GroupKey} {id : ℕ} {s : CharSet} : Ready settings known (set id s)
  | concat {known : Set GroupKey} {id : ℕ} {parts : List Expr} :
      InTurn (Ready settings) known parts → Ready settings known (concat id parts)
  | alternation {known : Set GroupKey} {id : ℕ} {branches : List Expr} :
      branches ≠ [] → (∀ e ∈ branches, Ready settings known e) →
      Ready settings known (alternation id branches)
  | repetition {known : Set GroupKey} {id : ℕ} {body : Expr} {bounds : Bounds} {same : Bool} :
      Ready settings known body → Ready settings known (repetition id body bounds same)
  | group {known : Set GroupKey} {id : ℕ} {body : Expr} :
      Ready settings known body → Ready settings known (group id body none)
  | capture {known : Set GroupKey} {id n : ℕ} {body : Expr} :
      Ready settings known body → (∀ key ∈ known ∪ body.settled, key.1 ≠ id ∧ key.2 ≠ n) →
      Ready settings known (group id body (some n))
  | backref {known : Set GroupKey} {id gid n : ℕ} {body : Expr} :
      settings.backrefs = .replay → (gid, n) ∈ known →
      Ready settings known (backref id (group gid body (some n)))

variable {settings : Settings} {known : Set GroupKey}

theorem Ready.unit {e : Expr} (h : Ready settings known e) : Ready settings known e.unit := by
  cases h with
  | text => exact .text
  | set => exact .set
  | concat parts => exact .concat parts
  | alternation ne branches => exact .alternation ne branches
  | repetition body => exact .repetition body
  | group body => exact .group body
  | capture body own => exact .capture body own
  | backref mode mem => exact .backref mode mem

theorem settled_unit (e : Expr) : e.unit.settled = e.settled := by
  cases e with
  | text id chars => rw [unit, settled, settled]
  | _ => rfl

end Expr

end PatternSampler
