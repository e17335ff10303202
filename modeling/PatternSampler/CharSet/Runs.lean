/-
# The characters of a set in order

The characters of a set in the order of their code points, for a choice that draws a rank among
them, and for showing the listed ones as ranges none of which can be extended.

* `CharSet.nth?` looks up the character of a rank, `CharSet.pick` is the choice.
* `CharSet.runs` are the ranges.
-/
import PatternSampler.CharSet.Basic
import PatternSampler.Random.Source

namespace PatternSampler

namespace CharSet

/-! ## Choices -/

/-- Whether the code point is a character of the table that a choice may return: one that the set
accepts, or, for an inverted choice, one that it rejects. -/
def isCandidate (set : CharSet) (invert : Bool) (code : Nat) : Bool :=
  code.isValidChar && (set.accepts (Char.ofNat code) != invert)

/-- The candidate of rank `rank` among `count` consecutive code points from `code` on. -/
def nthFrom? (set : CharSet) (invert : Bool) : (count code rank : Nat) → Option Char
  | 0, _, _ => none
  | count + 1, code, rank =>
    if set.isCandidate invert code then
      match rank with
      | 0 => some (Char.ofNat code)
      | rank + 1 => set.nthFrom? invert count (code + 1) rank
    else set.nthFrom? invert count (code + 1) rank

/-- The candidate of rank `rank`, in code point order. -/
def nth? (set : CharSet) (invert : Bool) (rank : Nat) : Option Char :=
  set.nthFrom? invert set.listed.size 0 rank

/-- Chooses a character that the set accepts or, if `invert`, one of the table that it rejects.
Nothing is drawn where there is none. -/
def pick {σ : Type} [RandomSource σ] (set : CharSet) (invert : Bool) : Sampling σ Char := do
  let count := if invert then set.excludable else set.selectable
  if count = 0 then throw .emptySet
  match set.nth? invert (← draw (.below count)) with
  | some c => return c
  | none => throw .emptySet

/-! ## Runs -/

/-- The runs of listed characters among `count` consecutive code points from `code` on; `start` is
where a run that is still open began. -/
def runsFrom (set : CharSet) : (count code : Nat) → (start : Option Nat) → List (Nat × Nat)
  | 0, _, none => []
  | 0, code, some first => [(first, code - 1)]
  | count + 1, code, start =>
    if set.listed.getD code false then
      set.runsFrom count (code + 1) (some (start.getD code))
    else
      match start with
      | none => set.runsFrom count (code + 1) none
      | some first => (first, code - 1) :: set.runsFrom count (code + 1) none

/-- The listed characters as maximal ranges of code points, in ascending order. -/
def runs (set : CharSet) : List (Nat × Nat) :=
  set.runsFrom set.listed.size 0 none

end CharSet

end PatternSampler
