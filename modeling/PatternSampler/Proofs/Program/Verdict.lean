/-
# The verdict of a program

The program of a tree whose slots fit accepts exactly the strings that the expression of the root
matches as a whole.  The code of the expression begins where the program begins, and the instruction
behind it accepts.

* `Tree.fullMatch_program_iff_of_scoped` : if every backreference sees its group.
* `Tree.WellFormed.fullMatch_program_iff` : for well-formed trees.
-/
import PatternSampler.Proofs.Program.Budget
import PatternSampler.Proofs.Program.Emission
import PatternSampler.Proofs.Program.Slots

namespace PatternSampler

/-- An expression matches the whole input. -/
def Expr.MatchesAll (e : Expr) (input : List Char) : Prop :=
  ∃ captures, e.Matches input ⟨0, fun _ => none⟩ ⟨input.length, captures⟩

namespace Tree

variable {t : Tree}

/-- The expressions of a tree fit what is said about the tree. -/
theorem expr_fits (ordered : t.Ordered) (id : ℕ) : (t.expr id).Fits t.captureCount t.set? where
  groups := by
    intro n has
    obtain ⟨g, -, own⟩ := exists_capture?_of_hasGroup ordered has
    exact le_captureCount own
  sets := by
    intro place s part
    obtain ⟨id', -, eq⟩ := exists_expr_of_part ordered part
    obtain ⟨rfl, look⟩ := shape?_of_expr_set ordered eq.symm
    rw [set?, look]

/-- **The verdict on a string is exact** if every backreference sees its group and the slots fit. -/
theorem fullMatch_program_iff_of_scoped (ordered : t.Ordered) {root : ℕ} (fit : t.SlotsFit root)
    {hidden : Set ℕ} (sees : (t.expr root).Scoped hidden)
    (visible : ∀ n ∉ hidden, n ≤ t.captureCount) (input : List Char) :
    (t.program root).fullMatch input = true ↔ (t.expr root).MatchesAll input := by
  rw [program_eq_wideProgram ordered fit]
  have room : 2 * t.captureCount + 1 < (t.wideProgram root).slotCount :=
    Nat.lt_of_lt_of_le (by omega) (valid_rootCode ordered root).1.slots
  have emits : Emits (t.wideProgram root) input hidden _ _ _ _ _ _ _ :=
    Expr.emits sees visible (expr_fits ordered root) room
  have run := emits.realizes _ t.valid_empty (Code.within_finish t.captureCount (t.rootCode root))
  have accept := Code.accept_finish t.captureCount (t.rootCode root)
  have start := reflects_empty input hidden
  rw [Program.fullMatch_eq_true_iff (wellFormed_wideProgram ordered root).inRange]
  constructor
  · intro accepts
    obtain ⟨stop, slots, passage, -, accepts⟩ :=
      run.sound (s := ⟨0, fun _ => none⟩) (Nat.zero_le _) start accepts
    have at_end : stop.pos = input.toArray.size := (Program.accepts_accept accept).1 accepts
    rw [List.size_toArray] at at_end
    exact ⟨stop.captures, at_end ▸ passage⟩
  · rintro ⟨captures, passage⟩
    obtain ⟨slots, -, back⟩ := run.complete (Nat.zero_le _) start passage
    exact back ((Program.accepts_accept accept).2 List.size_toArray.symm)

/-- The verdict on a string is exact for well-formed trees whose slots fit. -/
theorem WellFormed.fullMatch_program_iff (well : t.WellFormed) {root : ℕ} (fit : t.SlotsFit root)
    (input : List Char) :
    (t.program root).fullMatch input = true ↔ (t.expr root).MatchesAll input := by
  have sees : (t.expr root).Scoped {n | t.captureCount < n} :=
    well.scoped fun g _ n own => not_lt.2 (le_captureCount own)
  exact fullMatch_program_iff_of_scoped well.ordered fit sees (fun n hn => not_lt.1 hn) input

end Tree

end PatternSampler
