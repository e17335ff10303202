/-
# Parts of expressions

Which expressions occur in another one, and what is repeated where a part is repeated.

* `Expr.Part e f` : `e` occurs in `f`.  The target of a backreference is no part of it.
* `Expr.lead` and `Expr.unit` : of a repeated text all but the last character are read once.
* `Expr.unit_induct` : induction with a hypothesis for what is really repeated.
-/
import Mathlib
import PatternSampler.Tree.Expr

namespace PatternSampler

namespace Expr

/-! ## What is repeated -/

/-- What stands once in front of the occurrences of a repeated part: of a repeated text all but its
last character. -/
def lead : Expr → List Char
  | text _ chars => chars.dropLast
  | _ => []

/-- What is repeated where a part is repeated: of a text only its last character. -/
def unit : Expr → Expr
  | text id chars => text id chars.getLast?.toList
  | e => e

/-- Induction over expressions, with a hypothesis for what is repeated in a repetition. -/
theorem unit_induct {motive : Expr → Prop}
    (text : ∀ id chars, motive (text id chars))
    (set : ∀ id s, motive (set id s))
    (concat : ∀ id parts, (∀ e ∈ parts, motive e) → motive (concat id parts))
    (alternation : ∀ id branches, (∀ e ∈ branches, motive e) → motive (alternation id branches))
    (repetition : ∀ id body bounds same, motive body.unit →
      motive (repetition id body bounds same))
    (group : ∀ id body capture, motive body → motive (group id body capture))
    (backref : ∀ id target, motive target → motive (backref id target)) (e : Expr) :
    motive e := by
  induction e using Expr.induct with
  | text id chars => exact text id chars
  | set id s => exact set id s
  | concat id parts ih => exact concat id parts ih
  | alternation id branches ih => exact alternation id branches ih
  | repetition id body bounds same ih =>
    apply repetition
    cases body with
    | text tid chars => exact text tid _
    | _ => exact ih
  | group id body capture ih => exact group id body capture ih
  | backref id target ih => exact backref id target ih

/-! ## Occurrence -/

/-- One expression occurs in another one. -/
inductive Part (e : Expr) : Expr → Prop
  | refl : Part e e
  | concat {id : ℕ} {parts : List Expr} {f : Expr} :
      f ∈ parts → Part e f → Part e (concat id parts)
  | alternation {id : ℕ} {branches : List Expr} {f : Expr} :
      f ∈ branches → Part e f → Part e (alternation id branches)
  | repetition {id : ℕ} {body : Expr} {bounds : Bounds} {same : Bool} :
      Part e body → Part e (repetition id body bounds same)
  | group {id : ℕ} {body : Expr} {capture : Option ℕ} :
      Part e body → Part e (group id body capture)

theorem Part.trans {e f g : Expr} (first : Part e f) (second : Part f g) : Part e g := by
  induction second with
  | refl => exact first
  | concat mem _ ih => exact .concat mem ih
  | alternation mem _ ih => exact .alternation mem ih
  | repetition _ ih => exact .repetition ih
  | group _ ih => exact .group ih

/-- Some capturing group with the number `n` occurs in the expression. -/
def HasGroup (e : Expr) (n : ℕ) : Prop :=
  ∃ id body, Part (.group id body (some n)) e

theorem HasGroup.of_part {e f : Expr} {n : ℕ} (h : e.HasGroup n) (part : Part e f) :
    f.HasGroup n := by
  obtain ⟨id, body, inner⟩ := h
  exact ⟨id, body, inner.trans part⟩

/-- What is repeated has no group that the repeated part does not have. -/
theorem HasGroup.of_unit {e : Expr} {n : ℕ} (h : e.unit.HasGroup n) : e.HasGroup n := by
  cases e with
  | text id chars =>
    obtain ⟨_, _, part⟩ := h
    cases part
  | _ => exact h

/-! ## Visibility of groups -/

/-- Every backreference has a group to refer to whose number is visible, that is to say neither
hidden from the outset nor that of a group around the backreference.  A visible group does not occur
inside another one of the same number, and every alternation has a branch. -/
inductive Scoped : Set ℕ → Expr → Prop
  | text {hidden : Set ℕ} {id : ℕ} {chars : List Char} : Scoped hidden (text id chars)
  | set {hidden : Set ℕ} {id : ℕ} {s : CharSet} : Scoped hidden (set id s)
  | concat {hidden : Set ℕ} {id : ℕ} {parts : List Expr} :
      (∀ e ∈ parts, Scoped hidden e) → Scoped hidden (concat id parts)
  | alternation {hidden : Set ℕ} {id : ℕ} {branches : List Expr} :
      branches ≠ [] → (∀ e ∈ branches, Scoped hidden e) → Scoped hidden (alternation id branches)
  | repetition {hidden : Set ℕ} {id : ℕ} {body : Expr} {bounds : Bounds} {same : Bool} :
      Scoped hidden body → Scoped hidden (repetition id body bounds same)
  | group {hidden : Set ℕ} {id : ℕ} {body : Expr} :
      Scoped hidden body → Scoped hidden (group id body none)
  | capture {hidden : Set ℕ} {id n : ℕ} {body : Expr} :
      Scoped (insert n hidden) body → n ∈ hidden ∨ ¬ body.HasGroup n →
      Scoped hidden (group id body (some n))
  | backref {hidden : Set ℕ} {id gid n : ℕ} {body : Expr} :
      n ∉ hidden → Scoped hidden (backref id (group gid body (some n)))

theorem Scoped.unit {hidden : Set ℕ} {e : Expr} (h : Scoped hidden e) : Scoped hidden e.unit := by
  cases h with
  | text => exact .text
  | set => exact .set
  | concat all => exact .concat all
  | alternation ne all => exact .alternation ne all
  | repetition body => exact .repetition body
  | group body => exact .group body
  | capture body own => exact .capture body own
  | backref visible => exact .backref visible

end Expr

end PatternSampler
