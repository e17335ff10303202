/-
# Patterns without their markers

Markers say where a string may be made invalid and not what matches.  Without them a pattern can be
read if it could be read before, and its program is the same.

* `Phrase.Finishes.program_eq` : the program of a pattern is that of a skeleton.
* `Phrase.Replaces.exists_finishes` : the program of a phrase in the place of another one.
* `Pattern.exists_withoutMarkers` : what becomes of a pattern.
-/
import PatternSampler.Proofs.Pattern
import PatternSampler.Proofs.Program.Renaming
import PatternSampler.Proofs.Reading.Unmarking

namespace PatternSampler

open Reading

/-! ## Programs -/

namespace Tree

/-- Only the numbers under which groups capture count. -/
theorem captureCount_congr {t t' : Tree}
    (same : ∀ n, (∃ id, t.capture? id = some n) ↔ ∃ id, t'.capture? id = some n) :
    t.captureCount = t'.captureCount := by
  apply le_antisymm <;> refine captureCount_le fun id n own => ?_
  · obtain ⟨id', own'⟩ := (same n).1 ⟨id, own⟩
    exact le_captureCount own'
  · obtain ⟨id', own'⟩ := (same n).2 ⟨id, own⟩
    exact le_captureCount own'

end Tree

theorem Expr.SameCode.wideProgram {e e' : Expr} (same : SameCode e e') (groups : ℕ) :
    e'.wideProgram groups = e.wideProgram groups := by
  rw [Expr.wideProgram, wideCode, same.emit, Expr.wideProgram, wideCode]

/-- Under which numbers the sets are known does not count. -/
theorem Renames.wideProgram {places : Set ℕ} {rank : ℕ → ℕ} {e e' : Expr}
    (renames : Renames places rank e.emit e'.emit) (groups : ℕ) :
    e'.wideProgram groups = e.wideProgram groups := by
  have none : Code.SetsAt places { nextSlot := 2 * (groups + 1), modulus := 0 } := by
    simp [Code.SetsAt]
  have empty : Code.ranked rank { nextSlot := 2 * (groups + 1), modulus := 0 } =
      { nextSlot := 2 * (groups + 1), modulus := 0 } := by simp [Code.ranked]
  have same : e'.wideCode groups = (e.wideCode groups).ranked rank := by
    rw [Expr.wideCode, Expr.wideCode, ← renames.same _ none, empty]
  rw [Expr.wideProgram, same, Expr.wideProgram]
  simp only [Code.finish, Code.ranked, Array.map_map]
  rfl

namespace Phrase

variable {φ φ' : Phrase} {pattern : String} {c : Compiled} {d : Draft}

theorem rank_injOn (t : Tree) :
    Set.InjOn t.rank {place | (t.shape? place).any Shape.isSet = true} :=
  fun _ here _ there eq => Nat.count_injective here there eq

/-- **The program of a pattern is that of a skeleton**, the meaning of its phrase. -/
theorem Finishes.program_eq (h : φ.Finishes pattern c d) :
    c.program = (c.expr.skeleton d.tree.rank).wideProgram c.tree.captureCount := by
  have well : c.tree.WellFormed := h.finished ▸ h.sound.wellFormed_finish c.root
  have sees : c.expr.Scoped ∅ := well.scoped fun _ _ _ _ => Set.notMem_empty _
  have wide : c.program = c.expr.wideProgram c.tree.captureCount :=
    Tree.program_eq_wideProgram well.ordered (Compiled.slotsFit h.read)
  rw [wide]
  refine ((Expr.renames_skeleton (rank_injOn d.tree) sees fun id s part => ?_).wideProgram _).symm
  obtain ⟨id', -, eq⟩ := Tree.exists_expr_of_part well.ordered part
  obtain ⟨rfl, look⟩ := Tree.shape?_of_expr_set well.ordered eq.symm
  rw [← h.finished] at look
  have look := Draft.shape?_of_finish look (by simp)
  show (d.tree.shape? id).any Shape.isSet = true
  rw [look]
  rfl

/-- The groups of a pattern have the numbers that the account tells. -/
theorem Finishes.exists_capture?_iff (h : φ.Finishes pattern c d) (n : ℕ) :
    (∃ id, c.tree.capture? id = some n) ↔ n ∈ d.account.closed ∨
      d.account.opened < n ∧ n ≤ d.account.opened + d.account.named.length := by
  have nothing : ({} : Draft).Listed := by
    intro id n found
    simp [Tree.capture?, Tree.shape?] at found
  have listed := listed_of_build h.built nothing
  rw [← h.sound.exists_capture?_finish_iff h.distinct listed c.root n, h.finished]

/-- **A phrase in the place of another one has the same program.** -/
theorem Replaces.exists_finishes (replaces : φ'.Replaces φ) (h : φ.Finishes pattern c d)
    {pattern' : String} (spells : φ'.Spells expansions pattern'.toList) :
    ∃ c' d', φ'.Finishes pattern' c' d' ∧ c'.program = c.program := by
  obtain ⟨e, meaning, same⟩ := replaces h.meaning
  obtain ⟨root, d', built⟩ := exists_build_of_meaning meaning
  have finishes := spells.finishes built
  obtain ⟨_, meaning', -⟩ := exists_meaning_of_build d.opened built
  have account : d'.account = d.account :=
    congrArg Prod.snd (Option.some.inj (meaning'.symm.trans meaning))
  -- the meaning was taken with as many numbered groups as there are in the new draft
  have opened : d'.opened = d.opened := congrArg Account.opened account
  have skeleton : (d'.finish root).expr.skeleton d'.tree.rank = e := by
    have meaning' := finishes.meaning
    rw [opened, meaning] at meaning'
    exact (congrArg Prod.fst (Option.some.inj meaning')).symm
  have count : (d'.finish root).tree.captureCount = c.tree.captureCount := by
    refine Tree.captureCount_congr fun n => ?_
    rw [finishes.exists_capture?_iff, h.exists_capture?_iff, account]
  refine ⟨d'.finish root, d', finishes, ?_⟩
  rw [finishes.program_eq, h.program_eq, count, ← same.wideProgram, skeleton]

end Phrase

/-! ## Patterns -/

/-- A pattern without its markers, which are those that the reader takes (`Parses.takes`).  What
stands in brackets or behind a backslash stays as it is. -/
def withoutMarkers (pattern : String) : String :=
  String.ofList (unmarked pattern.toList)

/-- A pattern that can be read can be read without its markers. -/
theorem Compiled.exists_unmarked {pattern : String} {c : Compiled}
    (read : ofPattern? pattern = .ok c) (separated : Separated pattern.toList) :
    ∃ c', ofPattern? (withoutMarkers pattern) = .ok c' ∧ c'.hasMarker = false ∧
      c'.candidates = [] ∧ c'.program = c.program := by
  obtain ⟨φ, d, finishes⟩ := exists_finishes read
  obtain ⟨φ', spells, unmarked, replaces⟩ := finishes.spells.unmarked separated
  rw [← String.toList_ofList (l := Reading.unmarked pattern.toList)] at spells
  obtain ⟨c', d', finishes', same⟩ := replaces.exists_finishes finishes spells
  have clean : d'.Clean := unmarked.clean finishes'.built ⟨rfl, rfl, rfl⟩
  have finished := finishes'.finished
  refine ⟨c', finishes'.read, ?_, ?_, same⟩
  · rw [← finished]
    exact clean.hasMarker
  · rw [← finished]
    exact congrArg Array.toList clean.candidates

namespace Pattern

/-- **Markers do not count for what matches.**  Without them a pattern can be read if it could be
read before.  It has no marked nodes then, but the same program, so it matches the same strings.
Only where a number stands in front of a marker, no digit may stand behind it. -/
theorem exists_withoutMarkers {source : String} {p : Pattern} (read : ofString? source = .ok p)
    (separated : Separated source.toList) :
    ∃ p', ofString? (withoutMarkers source) = .ok p' ∧ p'.isInvalidating = false ∧
      p'.compiled.candidates = [] ∧ p'.compiled.program = p.compiled.program ∧
      ∀ input, (p'.fullMatch input).1 = (p.fullMatch input).1 := by
  have inUse : InUse source p := .read read
  obtain ⟨c, read', noMarker, noCandidate, same⟩ :=
    Compiled.exists_unmarked inUse.invariant.2.1 separated
  have read'' : ofString? (withoutMarkers source) =
      .ok { source := withoutMarkers source, compiled := c } := by
    unfold ofString?
    rw [read']
  refine ⟨_, read'', noMarker, noCandidate, same, fun input => ?_⟩
  have inUse' : InUse (withoutMarkers source) _ := .read read''
  rw [inUse.fullMatch, inUse'.fullMatch, same]

/-- In every place where a marker may stand, among them between runs that become one. -/
theorem exists_withoutMarkers_runs :
    ∃ p p', ofString? "ab\\i2c\\i+(x\\i)\\1\\iy" = .ok p ∧ ofString? "ab2c+(x)\\1y" = .ok p' ∧
      p.isInvalidating = true ∧ p'.isInvalidating = false ∧
      p'.compiled.program = p.compiled.program := by
  have run : (ofString? "ab\\i2c\\i+(x\\i)\\1\\iy").toOption.map isInvalidating = some true := by
    decide +kernel
  obtain ⟨p, read, marked⟩ := exists_read run
  have parts : lexemes "ab\\i2c\\i+(x\\i)\\1\\iy".toList = [['a'], ['b'], marker, ['2'], ['c'],
      marker, ['+'], ['('], ['x'], marker, [')'], ['\\', '1'], marker, ['y']] := by
    decide +kernel
  have separated : Separated "ab\\i2c\\i+(x\\i)\\1\\iy".toList := by
    rintro number ⟨c, tail, rfl, -⟩ d digit found
    rw [parts] at found
    simp only [List.infix_cons_iff, List.prefix_cons_iff, marker] at found
    simp at found
    obtain ⟨-, rfl⟩ := found
    exact absurd digit (by decide)
  obtain ⟨p', read', noMarker, -, same, -⟩ := exists_withoutMarkers read separated
  have text : withoutMarkers "ab\\i2c\\i+(x\\i)\\1\\iy" = "ab2c+(x)\\1y" := by
    rw [withoutMarkers, unmarked, parts]
    decide
  rw [text] at read'
  exact ⟨p, p', read, read', marked, noMarker, same⟩

end Pattern

end PatternSampler
