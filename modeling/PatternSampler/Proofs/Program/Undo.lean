/-
# One array of slots for all runs

All runs of a search share one array of slots, and on the way back the writes made since a split are
undone.  What going back again and again would lead to are the runs that the search still has to
follow, each with the slots it would have had as its own.  An instruction does to them what a step
does to the first of several runs with slots of their own.

* `Search.Shows` : the runs that a search still has to follow.
* `Search.exec_sameStep` : an instruction is a step of the first of them.
* `Program.fullMatch_eq_search` : the search answers as with slots for each run.
-/
import Mathlib
import PatternSampler.Proofs.Program.Copies

namespace PatternSampler

namespace Search

/-! ## Undoing writes -/

variable {undo : Array (ℕ × Option ℕ)} {slots : Array (Option ℕ)} {mark : ℕ}

theorem size_revert : (revert undo mark slots).size = slots.size := by
  unfold revert
  rw [← Array.foldr_toList]
  induction (undo.extract mark).toList with
  | nil => rfl
  | cons write writes ih => rw [List.foldr_cons, Array.size_setIfInBounds, ih]

/-- Nothing is undone if nothing has been noted. -/
theorem revert_size : revert undo undo.size slots = slots := by
  unfold revert
  simp

theorem setIfInBounds_getD (slots : Array (Option ℕ)) (slot : ℕ) :
    slots.setIfInBounds slot (slots.getD slot none) = slots := by
  apply Array.ext
  · exact Array.size_setIfInBounds
  · intro i _ lt
    rw [Array.getElem_setIfInBounds lt]
    split
    · next eq =>
      rw [eq, Array.getD_eq_getD_getElem?, Array.getElem?_eq_getElem lt, Option.getD_some]
    · rfl

/-- **A write that has been noted is undone first.** -/
theorem revert_push (le : mark ≤ undo.size) (slot : ℕ) (value : Option ℕ) :
    revert (undo.push (slot, slots.getD slot none)) mark (slots.setIfInBounds slot value) =
      revert undo mark slots := by
  have extract : (undo.push (slot, slots.getD slot none)).extract mark =
      (undo.extract mark).push (slot, slots.getD slot none) := by
    rw [Array.extract_push, if_neg (by simp), if_pos le]
  rw [revert, extract, Array.foldr_push, Array.setIfInBounds_setIfInBounds, setIfInBounds_getD,
    revert]

theorem shrink_push (le : mark ≤ undo.size) (write : ℕ × Option ℕ) :
    (undo.push write).shrink mark = undo.shrink mark := by
  rw [Array.shrink_eq_take, Array.shrink_eq_take, Array.take, Array.extract_push, if_pos le]

/-! ## Runs to follow -/

/-- The present run of a search is that of a configuration, and its latest mark is not yet ahead. -/
structure Mirrors (p : Program) (s : Search) (c : Config) : Prop where
  pc : s.pc = c.pc
  pos : s.pos = c.pos
  slots : ∀ slot, s.slot? slot = c.slots[slot]?
  size : s.slots.size = p.slotCount
  mark : ∀ branch, s.pending.head? = some branch → branch.mark ≤ s.undo.size

/-- The configurations of the runs that a search still has to follow: that of the present one, and
those that going back leads to. -/
inductive Shows (p : Program) : Search → List Config → Prop
  | last {s : Search} {c : Config} : Mirrors p s c → s.resume = none → Shows p s [c]
  | more {s s' : Search} {c : Config} {cs : List Config} :
      Mirrors p s c → s.resume = some s' → Shows p s' cs → Shows p s (c :: cs)

variable {p : Program} {input : Array Char} {s s' : Search} {c d : Config} {cs : List Config}

theorem Shows.mirrors (h : Shows p s (c :: cs)) : Mirrors p s c := by
  cases h with
  | last mirrors | more mirrors => exact mirrors

/-- Going back leads to the next run, if there is one. -/
theorem Shows.eq_nil_of_resume (h : Shows p s (c :: cs)) (none : s.resume = none) : cs = [] := by
  cases h with
  | last => rfl
  | more _ some _ => cases none.symm.trans some

theorem Shows.others (h : Shows p s (c :: cs)) (some : s.resume = some s') : Shows p s' cs := by
  cases h with
  | last _ none => cases none.symm.trans some
  | more _ some' others => exact Option.some.inj (some'.symm.trans some) ▸ others

/-- What going back leads to does not change if it leads to the same as before. -/
theorem Shows.move (h : Shows p s (c :: cs)) (mirrors : Mirrors p s' d)
    (same : s'.resume = s.resume) : Shows p s' (d :: cs) := by
  cases h with
  | last _ none => exact .last mirrors (same.trans none)
  | more _ some others => exact .more mirrors (same.trans some) others

/-! ## One instruction -/

/-- A run goes on within the same slots. -/
theorem Mirrors.advance (h : Mirrors p s c) (pc pos : ℕ) :
    Mirrors p { s with pc, pos } { c with pc, pos } where
  pc := rfl
  pos := rfl
  slots := h.slots
  size := h.size
  mark := h.mark

/-- A position is kept. -/
theorem Mirrors.save (h : Mirrors p s c) {slot : ℕ} (lt : slot < p.slotCount) (pc : ℕ) :
    Mirrors p { s with
        pc
        slots := s.slots.setIfInBounds slot (some s.pos)
        undo := s.undo.push (slot, s.slot? slot) }
      { c with pc, slots := c.slots.insert slot c.pos } where
  pc := rfl
  pos := h.pos
  slots := by
    intro other
    have before := h.slots other
    rw [Std.TreeMap.getElem?_insert, ← h.pos]
    unfold slot? at before ⊢
    rw [Array.getD_eq_getD_getElem?] at before ⊢
    dsimp only
    rw [Array.getElem?_setIfInBounds]
    by_cases eq : slot = other
    · subst eq
      rw [if_pos rfl, if_pos (h.size ▸ lt), if_pos (by simp)]
      rfl
    · rw [if_neg eq, if_neg (by simpa using eq)]
      exact before
  size := by rw [← h.size]; exact Array.size_setIfInBounds
  mark := by
    intro branch head
    rw [Array.size_push]
    exact (h.mark branch head).trans (Nat.le_succ _)

/-- A write is undone on the way back. -/
theorem Mirrors.resume_save (h : Mirrors p s c) (slot pc : ℕ) :
    resume { s with
        pc
        slots := s.slots.setIfInBounds slot (some s.pos)
        undo := s.undo.push (slot, s.slot? slot) } = s.resume := by
  have mark := h.mark
  unfold resume
  cases pending : s.pending with
  | nil => rfl
  | cons branch others =>
    have le := mark branch (by rw [pending]; rfl)
    dsimp only
    rw [slot?, revert_push le, shrink_push le]

/-- What a step does where an instruction has some effect.  Afterwards the search shows the run
that the step leads to, or both, in front of the others.  Nothing is said where it breaks off. -/
def SameStep (p : Program) (c : Config) (cs : List Config) : Effect → Step → Prop
  | .stray, _ => True
  | .accept, step => step = .accept
  | .fail s, step => step = .fail ∧ Shows p s (c :: cs)
  | .next s, step => ∃ d, step = .next d ∧ Shows p s (d :: cs)
  | .fork s, step => ∃ d d', step = .fork d d' ∧ Shows p s (d :: d' :: cs)

theorem Shows.sameStep_advance (h : Shows p s (c :: cs)) (read : ℕ) :
    SameStep p c cs (s.advance read) (c.advance read) := by
  have mirrors := h.mirrors
  refine ⟨_, rfl, h.move ?_ rfl⟩
  rw [← mirrors.pc, ← mirrors.pos]
  exact mirrors.advance _ _

/-- The way that is left behind at a split can be gone back to as long as nothing has happened. -/
theorem Shows.split (h : Shows p s (c :: cs)) (first second : ℕ) :
    Shows p { s with pc := first, pending := ⟨second, s.pos, s.undo.size⟩ :: s.pending }
      ({ c with pc := first } :: { c with pc := second } :: cs) := by
  have mirrors := h.mirrors
  have way (pc : ℕ) : Mirrors p { s with pc } { c with pc } := by
    rw [← mirrors.pos]
    exact mirrors.advance pc s.pos
  have back : resume { s with pc := first, pending := ⟨second, s.pos, s.undo.size⟩ :: s.pending } =
      some { s with pc := second } := by
    unfold resume
    dsimp only
    rw [revert_size, Array.shrink_eq_take, Array.take, Array.extract_size]
  refine .more ?_ back (h.move (way second) rfl)
  exact { way first with
    mark := by
      rintro _ ⟨⟩
      exact le_rfl }

/-- **An instruction is a step** of the first of the runs that a search still has to follow. -/
theorem exec_sameStep (input : Array Char) (h : Shows p s (c :: cs)) :
    SameStep p c cs (p.exec input s) (p.step input c) := by
  have mirrors := h.mirrors
  have slots := mirrors.slots
  obtain ⟨pc, pos, kept⟩ := c
  obtain rfl : s.pc = pc := mirrors.pc
  obtain rfl : s.pos = pos := mirrors.pos
  unfold Program.exec Program.step
  dsimp only at slots ⊢
  rcases look : p.insts[s.pc]? with _ | inst
  · exact ⟨rfl, h⟩
  cases inst with
  | accept =>
    dsimp only
    split
    · rfl
    · exact ⟨rfl, h⟩
  | char expected =>
    dsimp only
    split
    · exact h.sameStep_advance 1
    · exact ⟨rfl, h⟩
  | set index =>
    dsimp only
    rcases input[s.pos]? with _ | found
    · exact ⟨rfl, h⟩
    rcases p.sets[index]? with _ | set
    · trivial
    dsimp only
    split
    · exact h.sameStep_advance 1
    · exact ⟨rfl, h⟩
  | jump target => exact ⟨_, rfl, h.move (mirrors.advance target s.pos) rfl⟩
  | split first second => exact ⟨_, _, rfl, h.split first second⟩
  | save slot =>
    dsimp only
    split
    · next lt => exact ⟨_, rfl, h.move (mirrors.save (mirrors.size ▸ lt) _)
        (mirrors.resume_save slot _)⟩
    · trivial
  | progress slot =>
    dsimp only
    rw [← slots]
    split
    · split
      · exact ⟨rfl, h⟩
      · exact h.sameStep_advance 0
    · trivial
  | backref group =>
    dsimp only
    rw [← slots, ← slots]
    split
    · rcases s.slot? (p.startSlot group) with _ | start
      · exact ⟨rfl, h⟩
      rcases s.slot? (p.stopSlot group) with _ | stop
      · exact ⟨rfl, h⟩
      dsimp only
      split
      · exact h.sameStep_advance (stop - start)
      · exact ⟨rfl, h⟩
    · trivial
  | nop => exact h.sameStep_advance 0

/-- What the first run does, from what the instruction does. -/
theorem Shows.sameStep (h : Shows p s (c :: cs)) {effect : Effect}
    (exec : p.exec input s = effect) : SameStep p c cs effect (p.step input c) :=
  exec ▸ exec_sameStep input h

/-- **The search does not break off** if nothing is referred to that does not exist. -/
theorem exec_ne_stray (inRange : p.InRange) (size : s.slots.size = p.slotCount) :
    p.exec input s ≠ .stray := by
  unfold Program.exec
  rcases look : p.insts[s.pc]? with _ | inst
  · simp
  have exists_ := inRange inst (Array.mem_of_getElem? look)
  cases inst with
  | char | accept =>
    dsimp only
    split <;> simp [advance]
  | jump | split | nop => simp [advance]
  | set index =>
    have lt : index < p.sets.size := exists_
    rcases input[s.pos]? with _ | found
    · simp
    · simp only [Array.getElem?_eq_getElem lt]
      split <;> simp [advance]
  | save slot =>
    have lt : slot < s.slots.size := size ▸ exists_
    simp [lt]
  | progress slot =>
    have lt : slot < s.slots.size := size ▸ exists_
    simp only [lt, if_true]
    split <;> simp [advance]
  | backref group =>
    have lt : 2 * group + 1 < p.slotCount := exists_
    obtain ⟨start, stop⟩ := Program.groupSlots_eq lt
    have both : p.startSlot group < s.slots.size ∧ p.stopSlot group < s.slots.size := by omega
    simp only [if_pos both]
    split
    · split <;> simp [advance]
    · simp

/-! ## The search -/

/-- **The search goes on as with slots for each run.** -/
theorem run_eq_search (inRange : p.InRange) {allowed : List ℕ} (len : allowed.length = cs.length)
    (h : Shows p s cs) :
    p.run input allowed s = p.search input (allowed.zip cs) := by
  have nothing (others : List ℕ) : p.search input (others.zip []) = false := by
    rw [List.zip_nil_right, Program.search]
  induction allowed, s using Program.run.induct p input generalizing cs with
  | case1 s => rw [Program.run, List.zip_nil_left, Program.search]
  | case2 others s none =>
    obtain - | ⟨c, cs⟩ := cs
    · cases len
    obtain rfl := h.eq_nil_of_resume none
    rw [Program.run, none, List.zip_cons_cons, Program.search, nothing]
  | case3 others s s' some ih =>
    obtain - | ⟨c, cs⟩ := cs
    · cases len
    rw [Program.run, some, List.zip_cons_cons, Program.search]
    exact ih (Nat.succ.inj len) (h.others some)
  | case4 steps others s exec =>
    obtain - | ⟨c, cs⟩ := cs
    · cases len
    have step : p.step input c = .accept := h.sameStep exec
    rw [Program.run, exec, List.zip_cons_cons, Program.search, step]
  | case5 steps others s exec =>
    obtain - | ⟨c, cs⟩ := cs
    · cases len
    exact absurd exec (exec_ne_stray inRange h.mirrors.size)
  | case6 steps others s s' exec none =>
    obtain - | ⟨c, cs⟩ := cs
    · cases len
    obtain ⟨step, h'⟩ := h.sameStep exec
    obtain rfl := h'.eq_nil_of_resume none
    rw [Program.run, exec, List.zip_cons_cons, Program.search, step]
    dsimp only
    rw [none, nothing]
  | case7 steps others s s' exec s'' some ih =>
    obtain - | ⟨c, cs⟩ := cs
    · cases len
    obtain ⟨step, h'⟩ := h.sameStep exec
    rw [Program.run, exec, List.zip_cons_cons, Program.search, step]
    dsimp only
    rw [some]
    exact ih (Nat.succ.inj len) (h'.others some)
  | case8 steps others s s' exec ih =>
    obtain - | ⟨c, cs⟩ := cs
    · cases len
    obtain ⟨d, step, h'⟩ := h.sameStep exec
    rw [Program.run, exec, List.zip_cons_cons, Program.search, step]
    have len : (steps :: others).length = (d :: cs).length := len
    exact ih len h'
  | case9 steps others s s' exec ih =>
    obtain - | ⟨c, cs⟩ := cs
    · cases len
    obtain ⟨d, d', step, h'⟩ := h.sameStep exec
    rw [Program.run, exec, List.zip_cons_cons, Program.search, step]
    have len : (steps :: steps :: others).length = (d :: d' :: cs).length :=
      congrArg Nat.succ len
    exact ih len h'

/-- The search begins with a run that has kept nothing. -/
theorem shows_start (p : Program) : Shows p p.start [{}] := by
  refine .last ⟨rfl, rfl, fun slot => ?_, Array.size_replicate, nofun⟩ rfl
  rw [Std.TreeMap.getElem?_emptyc]
  show (Array.replicate p.slotCount none).getD slot none = none
  rw [Array.getD_eq_getD_getElem?, Array.getElem?_replicate]
  split <;> rfl

end Search

/-- **The verdict is that of a search with slots for each run.** -/
theorem Program.fullMatch_eq_search {p : Program} (inRange : p.InRange) (chars : List Char) :
    p.fullMatch chars = p.search chars.toArray [(p.budget chars.toArray, {})] :=
  Search.run_eq_search inRange rfl (Search.shows_start p)

end PatternSampler
