/-
# The search without a limit

The search may go on for as long as it takes, without counting the steps of its runs.  If it comes
to an end, whatever the program, and the program refers to nothing that it does not have, then it
has an answer; this is whether some run with slots of its own accepts, and the limit makes no
difference.

* `Program.exists_answer_of_loop`, `Program.answer_of_loop` : the answer is right.
* `Program.exists_loop_of_halts` : the search comes to an end if the runs do.
* `Tree.exists_loop_eq_some` : for the program of a tree it always does.
-/
import PatternSampler.Proofs.Program.Ending
import PatternSampler.Proofs.Program.Slots

namespace PatternSampler

namespace Program

variable {p : Program} {input : Array Char} {s : Search} {c : Config} {cs : List Config}
  {ending : Ending}

/-- **What a search answers is whether one of its runs accepts** if each has slots of its own. -/
theorem exists_answer_of_loop (inRange : p.InRange) {rounds : ℕ} (h : Search.Shows p s cs)
    (ends : p.loop input rounds s = some ending) :
    ∃ found, ending = .answer found ∧ (found = true ↔ ∃ c ∈ cs, p.Accepts input c) := by
  induction rounds generalizing s cs with
  | zero => cases ends
  | succ rounds ih =>
    obtain - | ⟨c, cs⟩ := cs
    · cases h
    rw [loop] at ends
    rw [List.exists_mem_cons_iff]
    rcases exec : p.exec input s with _ | s' | s' | s' | _ <;> rw [exec] at ends
    · have step : p.step input c = .accept := h.sameStep exec
      cases ends
      exact ⟨true, rfl, iff_of_true rfl (Or.inl ((accepts_iff_step c).2 (Or.inl step)))⟩
    · obtain ⟨step, h'⟩ := h.sameStep exec
      rw [or_iff_right (not_accepts_of_fail step)]
      rcases back : s'.resume with _ | s''
      · obtain rfl := h'.eq_nil_of_resume back
        simp only [back, Option.some.injEq] at ends
        exact ⟨false, ends.symm, by simp⟩
      · simp only [back] at ends
        exact ih (h'.others back) ends
    · obtain ⟨d, step, h'⟩ := h.sameStep exec
      rw [accepts_of_next step, ← List.exists_mem_cons_iff]
      exact ih h' ends
    · obtain ⟨d, d', step, h'⟩ := h.sameStep exec
      rw [accepts_of_fork step, or_assoc, ← List.exists_mem_cons_iff, ← List.exists_mem_cons_iff]
      exact ih h' ends
    · exact absurd exec (Search.exec_ne_stray inRange h.mirrors.size)

/-- **The answer of the search is right for every program** in which nothing is referred to that
does not exist: if the search comes to an end, then with an answer, and this is whether some run
that keeps its own slots goes from the first instruction, with nothing read and nothing kept, to an
accepting one at the end of the input.  The verdict with a limit is the same. -/
theorem answer_of_loop (inRange : p.InRange) {chars : List Char} {rounds : ℕ}
    (ends : p.loop chars.toArray rounds p.start = some ending) :
    ∃ found, ending = .answer found ∧ (found = true ↔ p.Accepts chars.toArray {}) ∧
      p.fullMatch chars = found := by
  obtain ⟨found, answer, right⟩ := exists_answer_of_loop inRange (Search.shows_start p) ends
  simp only [List.mem_singleton, exists_eq_left] at right
  exact ⟨found, answer, right,
    Bool.eq_iff_iff.2 ((fullMatch_eq_true_iff inRange chars).trans right.symm)⟩

/-- A program that keeps an `a` as the text of a group.  One way behind the split keeps another text
in its place and then goes on behind the end of the program; the other one reads a character and the
text of the group. -/
def overwriting : Program where
  insts := #[.save 0, .char 'a', .save 1, .split 4 8, .save 0, .char 'b', .save 1, .jump 99,
    .char 'b', .backref 0, .accept]
  sets := #[]
  groupCount := 0
  slotCount := 2

theorem answer_of_loop_overwriting : overwriting.InRange ∧
    overwriting.loop #['a', 'b', 'a'] 12 overwriting.start = some (.answer true) ∧
    overwriting.Accepts #['a', 'b', 'a'] {} ∧
    overwriting.loop #['a', 'b', 'b'] 12 overwriting.start = some (.answer false) ∧
    ¬ overwriting.Accepts #['a', 'b', 'b'] {} := by
  have inRange : overwriting.InRange := by decide
  have found : overwriting.loop "aba".toList.toArray 12 overwriting.start =
      some (.answer true) := by decide +kernel
  have missed : overwriting.loop "abb".toList.toArray 12 overwriting.start =
      some (.answer false) := by decide +kernel
  obtain ⟨_, ⟨⟩, accepts, -⟩ := answer_of_loop inRange found
  obtain ⟨_, ⟨⟩, accepts', -⟩ := answer_of_loop inRange missed
  exact ⟨inRange, found, accepts.1 rfl, missed, fun run => Bool.noConfusion (accepts'.2 run)⟩

/-! ## The search ends -/

/-- The search gets over a run that ends, if it comes to an end with the others. -/
theorem exists_loop_cons (halts : p.Halts input c)
    (rest : ∀ s, Search.Shows p s cs → ∃ rounds ending, p.loop input rounds s = some ending)
    (h : Search.Shows p s (c :: cs)) : ∃ rounds ending, p.loop input rounds s = some ending := by
  induction halts generalizing s cs with
  | intro c _ ih =>
    rcases exec : p.exec input s with _ | s' | s' | s' | _
    · exact ⟨1, .answer true, by rw [loop, exec]⟩
    · obtain ⟨-, h'⟩ := h.sameStep exec
      rcases back : s'.resume with _ | s''
      · exact ⟨1, .answer false, by simp only [loop, exec, back]⟩
      · obtain ⟨rounds, ending, ends⟩ := rest s'' (h'.others back)
        exact ⟨rounds + 1, ending, by simp only [loop, exec, back, ends]⟩
    · obtain ⟨d, step, h'⟩ := h.sameStep exec
      obtain ⟨rounds, ending, ends⟩ := ih d ((follows_of_next step).2 rfl) rest h'
      exact ⟨rounds + 1, ending, by simp only [loop, exec, ends]⟩
    · obtain ⟨d, d', step, h'⟩ := h.sameStep exec
      have second (s : Search) := ih d' ((follows_of_fork step).2 (Or.inr rfl)) (s := s) rest
      obtain ⟨rounds, ending, ends⟩ := ih d ((follows_of_fork step).2 (Or.inl rfl)) second h'
      exact ⟨rounds + 1, ending, by simp only [loop, exec, ends]⟩
    · exact ⟨1, .stray, by rw [loop, exec]⟩

/-- **The search comes to an end** if no run goes on forever. -/
theorem exists_loop_of_halts (halts : p.Halts input {}) :
    ∃ rounds ending, p.loop input rounds p.start = some ending := by
  refine exists_loop_cons halts (fun s others => ?_) (Search.shows_start p)
  -- behind the first run there is no other one
  cases others

end Program

namespace Tree

variable {t : Tree} {root : ℕ}

/-- In the program of a tree whose slots fit nothing is referred to that does not exist. -/
theorem inRange_program (ordered : t.Ordered) (fit : t.SlotsFit root) :
    (t.program root).InRange :=
  (wellFormed_program ordered fit).inRange

/-- **For the program of a tree the search always comes to an end**, whatever the input and however
loops are nested.  It has the answer of the search with a limit, unless the program refers to a slot
that it does not have, and this cannot be if the slots fit. -/
theorem exists_loop_eq_some (ordered : t.Ordered) (root : ℕ) (chars : List Char) :
    ∃ rounds ending,
      (t.program root).loop chars.toArray rounds (t.program root).start = some ending ∧
      ((t.program root).InRange → ending = .answer ((t.program root).fullMatch chars)) ∧
      (t.SlotsFit root → (t.program root).InRange) := by
  obtain ⟨rounds, ending, ends⟩ :=
    Program.exists_loop_of_halts (t.halts_program ordered root chars.toArray)
  refine ⟨rounds, ending, ends, fun inRange => ?_, inRange_program ordered⟩
  obtain ⟨found, answer, -, rfl⟩ := Program.answer_of_loop inRange ends
  exact answer

/-- A loop around a loop around a choice between nothing and a backreference to a group that keeps
no text. -/
def idle : Tree :=
  { nodes := #[{ shape := .text [] }, { shape := .group 0 none none }, { shape := .backref 1 },
      { shape := .alternation [0, 2] }, { shape := .repetition 3 ⟨0, none⟩ false },
      { shape := .repetition 4 ⟨1, none⟩ false }] }

theorem exists_loop_eq_some_idle : idle.Ordered ∧ ∃ rounds,
    (idle.program 5).loop #['a'] rounds (idle.program 5).start = some (.answer false) := by
  have ordered : idle.Ordered := by
    intro id shape h
    have lt : id < 6 := lt_size_of_shape? h
    interval_cases id <;> cases h <;> decide
  have verdict : (idle.program 5).fullMatch ['a'] = false := by decide +kernel
  obtain ⟨rounds, ending, ends, answer, inRange⟩ := idle.exists_loop_eq_some ordered 5 ['a']
  rw [answer (inRange (slotsFit_of_lt (by decide +kernel))), verdict] at ends
  exact ⟨ordered, rounds, ends⟩

/-- Without slots to keep a position in, the search breaks off at the first instruction. -/
theorem loop_program_utmost_ne_answer : utmost.Ordered ∧ ∀ rounds found,
    (utmost.program 1).loop #['a'] rounds (utmost.program 1).start ≠ some (.answer found) := by
  have strays : (utmost.program 1).exec #['a'] (utmost.program 1).start = .stray := by
    have first : (utmost.program 1).insts[0]? = some (.save (2 ^ 64 - 2)) := by
      rw [insts_program_utmost]
      rfl
    have none : ¬ 2 ^ 64 - 2 < (utmost.program 1).start.slots.size := by
      simp [Program.start, slotCount_program_utmost]
    simp only [Program.exec, Program.start, first]
    exact if_neg none
  refine ⟨ordered_utmost, fun rounds found => ?_⟩
  cases rounds with
  | zero => nofun
  | succ rounds => simp [Program.loop, strays]

end Tree

end PatternSampler
