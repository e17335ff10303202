/-
# The markers of a text

The markers among the lexemes of a text are those that the reader takes, no more and no less.

* `Phrase.markers` : how many markers have been taken for a phrase.
* `Takes` : some text consists of lexemes, and so many of them are markers.
* `Phrase.Spells.count_marker` : a text has as many markers as its phrase.
* `expansions_unmarked` : what macros stand for has no markers.
-/
import PatternSampler.Proofs.Reading.Building
import PatternSampler.Proofs.Reading.Framing
import PatternSampler.Proofs.Reading.Lexeme

namespace PatternSampler

open Reading

/-! ## Markers of phrases -/

/-- How many markers a piece has. -/
def Marks.count (marks : Marks) : ℕ :=
  marks.leading.toNat + marks.inner.toNat + marks.closing.toNat

namespace Phrase

mutual

/-- How many markers a phrase has. -/
def markers : Phrase → ℕ
  | atom _ => 0
  | group _ body => body.markers
  | piece marks body _ => marks.count + body.markers
  | branch pieces => markersAll pieces
  | choice first more => first.markers + markersAll more

/-- How many markers several phrases have. -/
def markersAll : List Phrase → ℕ
  | [] => 0
  | φ :: φs => φ.markers + markersAll φs

end

theorem markersAll_eq_zero {φs : List Phrase} :
    markersAll φs = 0 ↔ ∀ φ ∈ φs, φ.markers = 0 := by
  induction φs with
  | nil => exact iff_of_true rfl fun _ h => absurd h List.not_mem_nil
  | cons φ φs ih => rw [markersAll, Nat.add_eq_zero_iff, ih, List.forall_mem_cons]

/-- A phrase is without markers if it has none. -/
theorem unmarked_iff {φ : Phrase} : φ.Unmarked ↔ φ.markers = 0 := by
  induction φ using Phrase.induct with
  | atom a => exact iff_of_true .atom rfl
  | group kind body ih =>
    rw [markers, ← ih]
    constructor
    · intro h
      cases h with
      | group h => exact h
    · exact .group
  | piece marks body quantifier ih =>
    rw [markers, Nat.add_eq_zero_iff, ← ih]
    constructor
    · intro h
      cases h with
      | piece h => exact ⟨rfl, h⟩
    · rintro ⟨none, h⟩
      obtain ⟨_ | _, _ | _, _ | _⟩ := marks <;> simp [Marks.count] at none
      exact .piece h
  | branch pieces ih =>
    rw [markers, markersAll_eq_zero]
    constructor
    · intro h
      cases h with
      | branch all => exact fun φ mem => (ih φ mem).1 (all φ mem)
    · exact fun all => .branch fun φ mem => (ih φ mem).2 (all φ mem)
  | choice first more ih ih' =>
    rw [markers, Nat.add_eq_zero_iff, markersAll_eq_zero, ← ih]
    constructor
    · intro h
      cases h with
      | choice head all => exact ⟨head, fun φ mem => (ih' φ mem).1 (all φ mem)⟩
    · exact fun ⟨head, all⟩ => .choice head fun φ mem => (ih' φ mem).2 (all φ mem)

end Phrase

/-! ## Markers of texts -/

/-- What stands in front of the rest of a text consists of lexemes, `count` of which are markers. -/
def Takes (count : ℕ) (cs rest : List Char) : Prop :=
  ∃ parts, lexemes cs = parts ++ lexemes rest ∧ parts.count marker = count

namespace Takes

variable {count count' : ℕ} {cs cs' rest used : List Char}

theorem refl (cs : List Char) : Takes 0 cs cs :=
  ⟨[], rfl, rfl⟩

theorem trans (first : Takes count cs cs') (second : Takes count' cs' rest) :
    Takes (count + count') cs rest := by
  obtain ⟨parts, eq, rfl⟩ := first
  obtain ⟨parts', eq', rfl⟩ := second
  exact ⟨parts ++ parts', by rw [eq, eq', List.append_assoc], List.count_append⟩

theorem cast (h : Takes count cs rest) (eq : count = count') : Takes count' cs rest :=
  eq ▸ h

/-- What is skipped as a whole has no marker. -/
theorem of_skips (skips : Skips used rest) : Takes 0 (used ++ rest) rest := by
  obtain ⟨parts, -, clean, eq⟩ := skips
  exact ⟨parts, eq, List.count_eq_zero.2 clean⟩

/-- A character that is neither a backslash nor an opening bracket. -/
theorem char {c : Char} (backslash : c ≠ '\\') (bracket : c ≠ '[') (cs : List Char) :
    Takes 0 (c :: cs) cs :=
  of_skips (.char backslash bracket cs)

/-- One marker is taken, if there is one. -/
theorem skipMarker {present : Bool} (here : present = true → atMarker cs = true) :
    Takes present.toNat cs (skipMarker present cs) := by
  cases present with
  | false => exact .refl cs
  | true =>
    obtain ⟨rest, rfl⟩ := atMarker_iff.1 (here rfl)
    exact ⟨[marker], lexemes_marker rest, rfl⟩

/-- An atom that is no group has no marker. -/
theorem readAtom {a : Atom} (group : cs.head? ≠ some '(')
    (read : Reading.readAtom cs = .ok (a, rest)) : Takes 0 cs rest := by
  rcases readAtom_cases group read with ⟨used, run, -, rfl, -⟩ | ⟨used, ⟨rfl, -⟩, token⟩
  · exact of_skips run.skips
  · exact of_skips token.skips

/-- What opens a group has no marker. -/
theorem readGroupHead {kind : GroupKind} (read : Reading.readGroupHead cs = .ok (kind, rest)) :
    Takes 0 cs rest := by
  rcases readGroupHead_cases read with ⟨-, rfl, -⟩ | ⟨used, plain, rfl, -⟩
  · exact .refl cs
  · have plain : Plain ('?' :: used) := plain.cons (by decide)
    exact of_skips plain.skips

/-- A quantifier has no marker. -/
theorem readQuantifier {quantifier : Option Quantifier}
    (read : Reading.readQuantifier cs = .ok (quantifier, rest)) : Takes 0 cs rest := by
  rcases readQuantifier_cases read with ⟨-, rfl, -⟩ | ⟨c, used, mem, plain, rfl, -⟩
  · exact .refl cs
  · have plain : Plain (c :: used) := plain.cons (by fin_cases mem <;> decide)
    exact of_skips plain.skips

/-- What is left of a text is no less separated. -/
theorem separated (h : Takes count cs rest) (separated : Separated cs) : Separated rest := by
  obtain ⟨parts, eq, -⟩ := h
  intro number numeric d digit found
  apply separated number numeric d digit
  rw [eq]
  exact found.trans (List.suffix_append _ _).isInfix

end Takes

/-- **The markers of a text** are those that are taken for its phrases. -/
theorem Parses.takes {M : Expansions} {level : Level} {cs rest : List Char} {φs : List Phrase}
    (h : Parses M level cs φs rest) (clean : ∀ name φ, M name φ → φ.Unmarked) :
    Takes (Phrase.markersAll φs) cs rest := by
  induction h with
  | atom group read => exact .readAtom group read
  | expansion group read means =>
    rw [Phrase.markersAll, Phrase.markersAll, Phrase.unmarked_iff.1 (clean _ _ means)]
    exact .readAtom group read
  | @group tail inside rest _ _ _ read _ ih =>
    have opens := (Takes.char (c := '(') (by decide) (by decide) tail).trans (.readGroupHead read)
    have closes : Takes 0 (')' :: rest) rest := .char (by decide) (by decide) rest
    exact ((opens.trans ih).trans closes).cast
      (by simp [Phrase.markersAll, Phrase.markers])
  | @piece cs rest₁ rest₂ rest _ _ _ read eq ih =>
    -- a marker in front, one in front of the quantifier, one behind it
    have first : Takes _ cs rest₁ := (Takes.skipMarker fun h => h).trans ih
    have second : Takes _ rest₁ rest₂ :=
      (Takes.skipMarker Parses.atMarker_of_atQuantifierMarker).trans (.readQuantifier read)
    have third : Takes (atClosingMarker rest₂).toNat rest₂ rest := by
      rw [eq]
      exact .skipMarker Parses.atMarker_of_atClosingMarker
    refine ((first.trans second).trans third).cast ?_
    simp only [Phrase.markersAll, Phrase.markers, Marks.count]
    omega
  | nil => exact .refl _
  | cons _ _ _ ih ih' => exact (ih.trans ih').cast (by simp [Phrase.markersAll])
  | last _ _ ih => exact ih.cast (by simp [Phrase.markersAll, Phrase.markers])
  | @more _ rest₁ _ _ _ _ _ ih ih' =>
    have bar : Takes 0 ('|' :: rest₁) rest₁ := .char (by decide) (by decide) rest₁
    exact ((ih.trans bar).trans ih').cast (by simp [Phrase.markersAll, Phrase.markers])

/-- **A text has as many markers as its phrase.** -/
theorem Phrase.Spells.count_marker {M : Expansions} {cs : List Char} {φ : Phrase}
    (spells : φ.Spells M cs) (clean : ∀ name φ, M name φ → φ.Unmarked) :
    (lexemes cs).count marker = φ.markers := by
  obtain ⟨first, more, rfl, parses⟩ := spells
  obtain ⟨parts, eq, count⟩ := parses.takes clean
  rw [lexemes, List.append_nil] at eq
  rw [eq, count]
  rfl

/-- **What macros stand for has no markers.** -/
theorem expansions_unmarked {name : String} {φ : Phrase} (means : expansions name φ) :
    φ.Unmarked := by
  obtain ⟨text, found, spells⟩ := means
  -- the markers of the texts can be counted, and no macro stands in them
  have none : ∀ entry ∈ macros, (lexemes entry.2.toList).count marker = 0 := by decide +kernel
  rw [Phrase.unmarked_iff, ← spells.count_marker fun _ _ => False.elim]
  exact none (name, text) (mem_macros_of_expansion? found)

end PatternSampler
