/-
# Patterns for one character

A set in brackets, a shorthand class and the dot match single characters.  What brackets list stops
at the last character that can be listed.  A negative set and a complement that stands alone go on
beyond it, the dot ends with ASCII.

* `Pattern.exists_ofString?_of_readAtom` : what a pattern that is a single set matches.
* `CharSet.accepts_ofItems_of_covered` : sets of items, as far as all that they stand for can be
  listed, and `Reading.accepts_dotSet_iff` : the set of the dot.
* `Pattern.fullMatch_singleton` : items in brackets, shorthand classes, and the dot.
-/
import PatternSampler.Proofs.Brackets
import PatternSampler.Proofs.Pattern

namespace PatternSampler

open Reading

/-! ## Sets -/

/-- The dot is the set of the ASCII characters except the newline. -/
theorem Reading.accepts_dotSet_iff {c : Char} :
    dotSet.accepts c = true ↔ c ≤ '\x7F' ∧ c ≠ '\n' := by
  have ascii : c ≤ '\x7F' ↔ c.toNat ≤ 0x7F := by
    rw [Char.le_def, UInt32.le_iff_toNat_le]
    exact Iff.rfl
  have newline : c = '\n' ↔ c.toNat = 0x0A := Char.toNat_inj.symm
  have denotes : ClassItem.AnyDenotes [.range '\x00' '\x09', .range '\x0B' '\x7F'] c ↔
      c.toNat ≤ 0x09 ∨ 0x0B ≤ c.toNat ∧ c.toNat ≤ 0x7F := by
    simp [ClassItem.AnyDenotes, CharSet.denotes_range]
  have wide : CharSet.wideSize = 0x10000 := rfl
  rw [dotSet, CharSet.accepts_ofItems_iff, iff_true_right rfl, denotes, CharSet.le_lastChar_iff,
    wide, ascii, Ne, newline]
  omega

/-- Where everything that the items stand for can be listed, a positive set accepts what some item
stands for and a negative one what none does. -/
theorem CharSet.accepts_ofItems_of_covered {positive : Bool} {items : List ClassItem} {c : Char}
    (fits : ∀ item ∈ items, item.Fits)
    (covered : c ≤ lastChar ∨ ∀ kind, .shorthand kind ∈ items → kind.negated = false) :
    (ofItems positive items).accepts c = true ↔
      if positive then ∃ item ∈ items, item.denotes c = true
      else ∀ item ∈ items, item.denotes c = false := by
  have listed : ClassItem.AnyDenotes items c → c ≤ lastChar := by
    rintro ⟨item, mem, denotes⟩
    rcases covered with small | plain
    · exact small
    · refine le_lastChar_of_denotes (fits item mem) ?_ denotes
      rintro kind rfl
      exact plain kind mem
  rw [accepts_ofItems_iff, and_iff_left_of_imp listed]
  cases positive with
  | true => exact iff_true_right rfl
  | false =>
    rw [iff_false_right Bool.false_ne_true]
    simp [ClassItem.AnyDenotes]

namespace Pattern

/-- A text that is read as one set is a pattern for the characters that the set accepts. -/
theorem exists_ofString?_of_readAtom {cs : List Char} {set : CharSet}
    (read : readAtom cs = .ok (.set set, [])) :
    ∃ p, ofString? (String.ofList cs) = .ok p ∧
      ∀ c : Char, (p.fullMatch (String.singleton c)).1 = set.accepts c := by
  let p : Pattern := { source := String.ofList cs, compiled := .single set }
  have opened : ofString? (String.ofList cs) = .ok p := by
    rw [ofString?, Compiled.ofPattern?_of_readAtom read]
  refine ⟨p, opened, fun c => ?_⟩
  have expr : p.compiled.expr = .set 0 set := rfl
  have language : [c] ∈ (Expr.set 0 set).language ↔ set.accepts c = true := by
    rw [Expr.language]
    constructor
    · rintro ⟨d, accepted, eq⟩
      cases eq
      exact accepted
    · exact fun accepted => ⟨c, accepted, rfl⟩
  rw [Bool.eq_iff_iff, (InUse.read opened).fullMatch_iff_of_scoped (expr ▸ .set),
    String.toList_singleton, expr, language]

/-- **What the patterns for one character match.**  Brackets match what some item stands for, or
with a caret what none does, as far as everything that the items stand for can be listed; a
shorthand class stands for the same characters as an item and alone; and the dot matches the ASCII
characters except the newline. -/
theorem fullMatch_singleton (positive : Bool) (items : List ClassItem) (c : Char) :
    (∀ cs, ReadsItems positive items cs → ∃ p, ofString? (String.ofList ('[' :: cs)) = .ok p ∧
      ((c ≤ '\uFFFF' ∨ ∀ kind, .shorthand kind ∈ items → kind.negated = false) →
        ((p.fullMatch (String.singleton c)).1 = true ↔
          if positive then ∃ item ∈ items, item.denotes c = true
          else ∀ item ∈ items, item.denotes c = false))) ∧
    (∀ texts, items ≠ [] → List.Forall₂ WritesItem items texts → (∀ item ∈ items, item.Fits) →
      ReadsItems positive items (bracketText positive texts.flatten)) ∧
    (∀ letter kind, Shorthand.ofLetter? letter = some kind →
      ∃ p, ofString? (String.ofList ['\\', letter]) = .ok p ∧
        (p.fullMatch (String.singleton c)).1 = (ClassItem.shorthand kind).denotes c) ∧
    ∃ p, ofString? "." = .ok p ∧
      ((p.fullMatch (String.singleton c)).1 = true ↔ c ≤ '\x7F' ∧ c ≠ '\n') := by
  refine ⟨fun cs read => ?_, fun texts nonempty writes fits =>
    readsItems_of_writes positive nonempty writes fits, fun letter kind named => ?_, ?_⟩
  · obtain ⟨p, opened, accepts⟩ := exists_ofString?_of_readAtom (readAtom_of_readsItems read)
    refine ⟨p, opened, fun covered => ?_⟩
    rw [accepts]
    exact CharSet.accepts_ofItems_of_covered read.fits covered
  · have read : readAtom ['\\', letter] = .ok (.set (.ofShorthand kind), []) := by
      have escape : readEscape [letter] = .ok (.shorthand kind, []) := by
        rw [readEscape, named]
      exact bind_eq_ok.2 ⟨_, escape, rfl⟩
    obtain ⟨p, opened, accepts⟩ := exists_ofString?_of_readAtom read
    exact ⟨p, opened, (accepts c).trans (CharSet.accepts_ofShorthand kind c)⟩
  · have read : readAtom ['.'] = .ok (.set dotSet, []) := rfl
    obtain ⟨p, opened, accepts⟩ := exists_ofString?_of_readAtom read
    exact ⟨p, opened, by rw [accepts, accepts_dotSet_iff]⟩

/-- A character that cannot be listed. -/
def unlisted : Char := Char.ofNat 0x10000

/-- A range and a class that is no complement. -/
def lettersAndDigits : List ClassItem := [.range 'a' 'c', .shorthand .digit]

/-- One way to write them. -/
def lettersAndDigitsTexts : List (List Char) := [['a'] ++ '-' :: ['c'], ['\\', 'd']]

/-- A negative set and a complement that stands alone, at a character that cannot be listed. -/
theorem fullMatch_singleton_unlisted :
    lettersAndDigits ≠ [] ∧ List.Forall₂ WritesItem lettersAndDigits lettersAndDigitsTexts ∧
      (∀ item ∈ lettersAndDigits, item.Fits) ∧
      ReadsItems false lettersAndDigits (bracketText false lettersAndDigitsTexts.flatten) ∧
      (∀ kind, .shorthand kind ∈ lettersAndDigits → kind.negated = false) ∧
      Shorthand.ofLetter? 'D' = some .nonDigit ∧
      (∃ p, ofString? "[^a-c\\d]" = .ok p ∧
        (p.fullMatch (String.singleton unlisted)).1 = true) ∧
      ∃ p, ofString? "\\D" = .ok p ∧ (p.fullMatch (String.singleton unlisted)).1 = true := by
  have nonempty : lettersAndDigits ≠ [] := List.cons_ne_nil _ _
  have writes : List.Forall₂ WritesItem lettersAndDigits lettersAndDigitsTexts :=
    .cons (.range (.plain rfl) (.plain rfl)) (.cons (.shorthand rfl) .nil)
  have fits : ∀ item ∈ lettersAndDigits, item.Fits := by decide
  have plain : ∀ kind, .shorthand kind ∈ lettersAndDigits → kind.negated = false := by
    intro kind mem
    obtain rfl : kind = .digit := by simpa [lettersAndDigits] using mem
    rfl
  obtain ⟨brackets, reads, alone, -⟩ := fullMatch_singleton false lettersAndDigits unlisted
  have read := reads lettersAndDigitsTexts nonempty writes fits
  obtain ⟨p, opened, accepts⟩ := brackets _ read
  obtain ⟨q, opened', accepts'⟩ := alone 'D' .nonDigit rfl
  have denoted : (ClassItem.shorthand .nonDigit).denotes unlisted = true := rfl
  exact ⟨nonempty, writes, fits, read, plain, rfl,
    ⟨p, opened, (accepts (.inr plain)).2 (by decide)⟩, q, opened', accepts'.trans denoted⟩

/-- Beyond the table a complement in brackets stands for nothing, although it does alone, and the
dot does not match a letter with an accent. -/
theorem fullMatch_beyond_table :
    (ClassItem.shorthand .nonDigit).denotes unlisted = true ∧
      (∃ p, ofString? "\\D" = .ok p ∧ (p.fullMatch (String.singleton unlisted)).1 = true) ∧
      (∃ p, ofString? "[\\D]" = .ok p ∧ (p.fullMatch (String.singleton unlisted)).1 = false) ∧
      (∃ p, ofString? "[^\\D]" = .ok p ∧ (p.fullMatch (String.singleton unlisted)).1 = true) ∧
      ∃ p, ofString? "." = .ok p ∧ (p.fullMatch (String.singleton '\u00E9')).1 = false := by
  have brackets (positive : Bool) : ∃ p, ofString? (bracketed positive [['\\', 'D']]) = .ok p ∧
      (p.fullMatch (String.singleton unlisted)).1 = !positive := by
    have writes : List.Forall₂ WritesItem [.shorthand .nonDigit] [['\\', 'D']] :=
      .cons (.shorthand rfl) .nil
    have read := readsItems_of_writes positive (List.cons_ne_nil _ _) writes (by decide)
    obtain ⟨p, opened, accepts⟩ := exists_ofString?_of_readAtom (readAtom_of_readsItems read)
    have beyond : ¬ unlisted ≤ CharSet.lastChar := by decide
    have nothing : ¬(ClassItem.AnyDenotes [.shorthand .nonDigit] unlisted ∧
        unlisted ≤ CharSet.lastChar) := fun listed => beyond listed.2
    refine ⟨p, opened, ?_⟩
    rw [accepts, Bool.eq_iff_iff, CharSet.accepts_ofItems_iff, iff_false_left nothing,
      Bool.not_eq_true, Bool.not_eq_true']
  have alone : readAtom ['\\', 'D'] = .ok (.set (.ofShorthand .nonDigit), []) := rfl
  obtain ⟨p, opened, accepts⟩ := exists_ofString?_of_readAtom alone
  have dot : readAtom ['.'] = .ok (.set dotSet, []) := rfl
  obtain ⟨q, opened', accepts'⟩ := exists_ofString?_of_readAtom dot
  have accented : ¬('\u00E9' ≤ '\x7F' ∧ '\u00E9' ≠ '\n') := by decide
  refine ⟨rfl, ⟨p, opened, ?_⟩, brackets true, brackets false, q, opened', ?_⟩
  · rw [accepts, CharSet.accepts_ofShorthand]
    rfl
  · rw [accepts', Bool.eq_false_iff, Ne, accepts_dotSet_iff]
    exact accented

end Pattern

end PatternSampler
