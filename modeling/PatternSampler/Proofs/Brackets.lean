/-
# Sets in brackets as patterns

A list of items in brackets is a pattern with a single node, and the node is the set of what the
items stand for together.  In which order they are written, how often, and how each character is
written does not matter.

* `Compiled.single` : a pattern that is one set, `Compiled.ofPattern?_of_readAtom` : how it is read.
* `Compiled.exists_ofPattern?_bracketed` : what items in brackets are read as.
-/
import PatternSampler.Proofs.Reading.Framing
import PatternSampler.Proofs.Reading.Items

namespace PatternSampler

open Reading

/-! ## A single set -/

/-- A pattern that is one set, without markers. -/
def Compiled.single (set : CharSet) : Compiled where
  tree := { nodes := #[{ shape := .set set }] }
  root := 0
  candidates := []
  hasMarker := false

/-- A text that is read as one set makes a pattern of a single node. -/
theorem Compiled.ofPattern?_of_readAtom {cs : List Char} {set : CharSet}
    (read : readAtom cs = .ok (.set set, [])) :
    ofPattern? (String.ofList cs) = .ok (single set) := by
  -- no other kind of atom begins in this way
  have noGroup : cs.head? ≠ some '(' := by
    intro head
    rw [(List.cons_head?_tail head).symm] at read
    simp [readAtom, misplacedChars] at read
  have going : atBranchEnd cs = false := by
    cases cs with
    | nil => cases read
    | cons c tail =>
      have placed {d : Char} (misplaced : d ∈ misplacedChars) (other : d ≠ '[' ∧ d ≠ '\\') :
          c ≠ d := by
        rintro rfl
        rw [readAtom.eq_5 c tail (fun rest eq => absurd eq other.1) other.1 other.2,
          if_pos misplaced] at read
        cases read
      simp [atBranchEnd, placed (d := ')') (by decide), placed (d := '|') (by decide)]
  have unmarked : atMarker cs = false := by
    rw [atMarker_eq_false_iff]
    rintro rest rfl
    cases read
  let φ : Phrase := .choice (.branch [.piece ⟨false, false, false⟩ (.atom (.set set)) none]) []
  have spells : φ.Spells expansions (String.ofList cs).toList := by
    rw [String.toList_ofList]
    have piece : Parses expansions .piece cs
        [.piece ⟨false, false, false⟩ (.atom (.set set)) none] [] :=
      Parses.piece_of_atMarker (.atom noGroup read (by simp)) rfl unmarked rfl rfl
    exact ⟨_, _, rfl, .last (.cons going piece (.nil rfl)) (by simp)⟩
  have built : φ.build {} = .ok 0 (Draft.plant {} (.set set)) := rfl
  exact ofPattern?_eq_ok_iff.2 ⟨φ, _, spells, built, rfl⟩

/-! ## Items in brackets -/

/-- Written items in brackets, as a pattern. -/
def bracketed (positive : Bool) (texts : List (List Char)) : String :=
  String.ofList ('[' :: bracketText positive texts.flatten)

namespace Compiled

/-- **Items in brackets are read as one set**: it lists what the items stand for together, its table
is wide if one of them stands for a character beyond ASCII, and other items that stand for the same
characters are read as the same set. -/
theorem exists_ofPattern?_bracketed (positive : Bool) {items : List ClassItem}
    {texts : List (List Char)} (nonempty : items ≠ [])
    (writes : List.Forall₂ WritesItem items texts) (fits : ∀ item ∈ items, item.Fits) :
    ∃ set : CharSet, ofPattern? (bracketed positive texts) = .ok (single set) ∧
      set.positive = positive ∧
      (∀ code : ℕ, set.listed[code]? = some true ↔ code ≤ 0xFFFF ∧ code.isValidChar ∧
        ∃ item ∈ items, item.denotes (Char.ofNat code) = true) ∧
      (set.isWide = true ↔ ∃ c : Char, '\x7F' < c ∧ c ≤ '\uFFFF' ∧
        ∃ item ∈ items, item.denotes c = true) ∧
      ∀ (items' : List ClassItem) (texts' : List (List Char)), items' ≠ [] →
        List.Forall₂ WritesItem items' texts' → (∀ item ∈ items', item.Fits) →
        (∀ c ≤ '\uFFFF', (∃ item ∈ items, item.denotes c = true) ↔
          ∃ item ∈ items', item.denotes c = true) →
        ofPattern? (bracketed positive texts') = .ok (single set) := by
  have read {items : List ClassItem} {texts : List (List Char)} (nonempty : items ≠ [])
      (writes : List.Forall₂ WritesItem items texts) (fits : ∀ item ∈ items, item.Fits) :
      ofPattern? (bracketed positive texts) = .ok (single (.ofItems positive items)) :=
    ofPattern?_of_readAtom
      (readAtom_of_readsItems (readsItems_of_writes positive nonempty writes fits))
  refine ⟨.ofItems positive items, read nonempty writes fits, CharSet.positive_ofItems _ _,
    fun code => ?_, ?_, fun items' texts' nonempty' writes' fits' same => ?_⟩
  · have bound : code < CharSet.wideSize ↔ code ≤ 0xFFFF := Nat.lt_succ_iff
    rw [← CharSet.lists_eq_true_iff, CharSet.lists_ofItems, bound, ← and_assoc, and_comm]
    exact Iff.rfl
  · rw [CharSet.isWide_ofItems_iff positive fits]
    refine exists_congr fun c => ?_
    have beyond : '\x7F' < c ↔ CharSet.asciiSize ≤ c.toNat := by
      rw [Char.lt_def, UInt32.lt_iff_toNat_lt]
      exact Nat.succ_le_iff.symm
    rw [beyond, and_rotate]
    exact Iff.rfl
  · rw [CharSet.ofItems_eq_of_denotes positive fits fits' same]
    exact read nonempty' writes' fits'

/-- Items that have a meaning of their own in brackets, a complement and a character beyond ASCII.
-/
def mixed : List ClassItem :=
  [.char ']', .range '-' 'a', .shorthand .nonDigit, .char '\u00E9']

/-- One way to write them. -/
def mixedTexts : List (List Char) :=
  [['\\', ']'], ['\\', '-'] ++ '-' :: ['\\', 'u', '0', '0', '6', '1'], ['\\', 'D'], ['\u00E9']]

/-- A negative set that begins with a closing bracket, has hyphens at the ends of a range, and whose
table is widened by a complement. -/
theorem exists_ofPattern?_bracketed_mixed :
    bracketed false mixedTexts = "[^\\]\\--\\u0061\\D\u00E9]" ∧ mixed ≠ [] ∧
      List.Forall₂ WritesItem mixed mixedTexts ∧ (∀ item ∈ mixed, item.Fits) ∧
      ∃ set : CharSet, ofPattern? (bracketed false mixedTexts) = .ok (single set) ∧
        set.positive = false ∧ set.isWide = true ∧ set.listed[0x4E2D]? = some true := by
  have nonempty : mixed ≠ [] := List.cons_ne_nil _ _
  have writes : List.Forall₂ WritesItem mixed mixedTexts := by
    have hex : ∀ d ∈ ['0', '0', '6', '1'], isHexDigit d = true := List.all_eq_true.1 rfl
    exact .cons (.char (.escaped rfl)) (.cons (.range (.escaped rfl) (.number rfl hex rfl))
      (.cons (.shorthand rfl) (.cons (.char (.plain rfl)) .nil)))
  have fits : ∀ item ∈ mixed, item.Fits := by decide
  obtain ⟨set, read, positive, listed, wide, -⟩ :=
    exists_ofPattern?_bracketed false nonempty writes fits
  refine ⟨rfl, nonempty, writes, fits, set, read, positive, wide.2 ?_, (listed _).2 ?_⟩
  · exact ⟨'\u00E9', by decide, by decide, .char '\u00E9', by decide, rfl⟩
  · exact ⟨by decide, by decide, .shorthand .nonDigit, by decide, rfl⟩

end Compiled

end PatternSampler
