/-
# Shapes that readers produce

The bounds of a repetition that was read are in order and not large, and the sets that were read
have a right account of their characters.

* `Shape.Regular` says so of the shape of a node.
* `Reading.sensible_of_readQuantifier` and `Reading.counted_of_readAtom` : what readers of
  quantifiers and atoms produce.
-/
import PatternSampler.Proofs.CharSet.Counting
import PatternSampler.Reading.Atom
import PatternSampler.Reading.Quantifier

namespace PatternSampler

/-- Both bounds are at most the largest one that is accepted, and in order. -/
structure Bounds.Sensible (b : Bounds) : Prop where
  least : b.least ≤ Reading.maxBound
  most : ∀ most, b.most = some most → b.least ≤ most ∧ most ≤ Reading.maxBound

/-- Sets have a right account of their characters, repetitions have sensible bounds. -/
def Shape.Regular : Shape → Prop
  | set s => s.Counted
  | repetition _ bounds _ => bounds.Sensible
  | text _ | concat _ | alternation _ | group _ _ _ | backref _ => True

namespace Reading

/-! ## Quantifiers -/

theorem readBound_le {cs rest : List Char} {n : ℕ} (h : readBound cs = .ok (n, rest)) :
    n ≤ maxBound := by
  simp only [readBound] at h
  split at h
  · cases h
  split at h
  · cases h
  split at h
  · cases h
  · next small =>
    cases h
    exact not_lt.1 small

theorem readMost_le {least : ℕ} {cs rest : List Char} {most : Option ℕ} (le : least ≤ maxBound)
    (h : readMost least cs = .ok (most, rest)) : ∀ n, most = some n → n ≤ maxBound := by
  unfold readMost at h
  split at h
  · cases h
    simp
  · obtain ⟨⟨n, left⟩, read, h⟩ := bind_eq_ok.1 h
    cases h
    rintro _ ⟨⟩
    exact readBound_le read
  · cases h
    rintro _ ⟨⟩
    exact le

theorem sensible_of_readBraces {cs rest : List Char} {quantifier : Quantifier}
    (h : readBraces cs = .ok (quantifier, rest)) : quantifier.bounds.Sensible := by
  obtain ⟨⟨least, afterLeast⟩, readLeast, h⟩ := bind_eq_ok.1 h
  obtain ⟨⟨most, afterMost⟩, readMost, h⟩ := bind_eq_ok.1 h
  have small : least ≤ maxBound := readBound_le readLeast
  dsimp only at h
  split at h
  · cases h
  split at h
  · cases h
  split at h
  · cases h
  · next inOrder =>
    cases h
    refine ⟨small, fun n eq => ⟨?_, readMost_le small readMost n eq⟩⟩
    have eq : most = some n := eq
    rw [eq] at inOrder
    simpa using inOrder

/-- **The bounds of a quantifier are sensible**, however it is written. -/
theorem sensible_of_readQuantifier {cs rest : List Char} {quantifier : Quantifier}
    (h : readQuantifier cs = .ok (some quantifier, rest)) : quantifier.bounds.Sensible := by
  obtain ⟨⟨q, left⟩, read, h⟩ := bind_eq_ok.1 h
  dsimp only at h
  split at h
  · cases h
  cases h
  unfold readGreedy at read
  split at read
  · cases read
    exact ⟨by decide, by simp⟩
  · cases read
    exact ⟨by decide, by simp⟩
  · cases read
    exact ⟨by decide, by simp [maxBound]⟩
  · obtain ⟨⟨q, left⟩, braces, read⟩ := bind_eq_ok.1 read
    cases read
    exact sensible_of_readBraces braces
  · cases read

/-! ## Atoms -/

theorem counted_of_readBracket {unclosed : Fault} {cs rest : List Char} {set : CharSet}
    (h : readBracket unclosed cs = .ok (set, rest)) : set.Counted := by
  obtain ⟨⟨items, left⟩, -, h⟩ := bind_eq_ok.1 h
  cases h
  exact CharSet.counted_ofItems _ _

/-- The only sets that an escape stands for are those of shorthand classes. -/
theorem counted_of_escape {escape : Escape} {set : CharSet} (eq : escape.atom = .set set) :
    set.Counted := by
  cases escape with
  | shorthand kind =>
    obtain rfl : CharSet.ofShorthand kind = set := Atom.set.inj eq
    exact CharSet.counted_ofShorthand kind
  | char | anchor | backrefNumber | backrefName => cases eq

/-- **The account of a set that was read is right**, however the set is written. -/
theorem counted_of_readAtom {cs rest : List Char} {a : Atom} (h : readAtom cs = .ok (a, rest))
    {set : CharSet} (eq : a = .set set) : set.Counted := by
  unfold readAtom at h
  split at h
  · cases h
  · obtain ⟨⟨name, left⟩, -, h⟩ := bind_eq_ok.1 h
    cases h
    cases eq
  · obtain ⟨⟨read, left⟩, bracket, h⟩ := bind_eq_ok.1 h
    cases h
    cases eq
    exact counted_of_readBracket bracket
  · obtain ⟨⟨escape, left⟩, -, h⟩ := bind_eq_ok.1 h
    obtain ⟨rfl, -⟩ := Prod.mk.inj (Except.ok.inj h)
    exact counted_of_escape eq
  · split at h
    · cases h
    split at h
    · obtain ⟨rfl, -⟩ := Prod.mk.inj (Except.ok.inj h)
      obtain rfl : dotSet = set := Atom.set.inj eq
      exact CharSet.counted_ofItems _ _
    split at h <;> obtain ⟨rfl, -⟩ := Prod.mk.inj (Except.ok.inj h) <;> cases eq

end Reading

end PatternSampler
