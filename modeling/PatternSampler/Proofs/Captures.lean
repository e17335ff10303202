/-
# The numbers of capturing groups

The capturing groups of a pattern are numbered from one on without a gap: first those without a name
in the order in which they open, then the named ones in the order in which they close.

* `groupsOf` : the groups in the text of a pattern, and `places_of_mem_groupsOf` : where they stand.
* `Compiled.CaptureNumbers` : how groups are numbered, and what becomes of that in the program.
* `Compiled.exists_captureNumbers` : every pattern that has been read.
-/
import PatternSampler.Proofs.Program.Slots
import PatternSampler.Proofs.Reading.Numbering
import PatternSampler.Proofs.Unmarked

namespace PatternSampler

open Reading

/-- The groups in the text of a pattern, each with its kind. -/
def groupsOf (pattern : String) : Set (GroupKind × Site) :=
  (Call.whole pattern).sites pattern.toList.length

/-- The slots in which a group with a number keeps where it begins and where it ends. -/
def groupSlots (number : ℕ) : Set ℕ :=
  {2 * number, 2 * number + 1}

theorem mem_groupSlots_iff {number slot : ℕ} : slot ∈ groupSlots number ↔ slot / 2 = number := by
  show slot = 2 * number ∨ slot = 2 * number + 1 ↔ _
  omega

variable {pattern : String} {c : Compiled} {first : ℕ} {more : List ℕ} {d d₁ : Draft}
  {kind : GroupKind} {s : Site} {unnamed named : List Site}

/-! ## Groups in the text of a pattern -/

/-- Where the end of a text begins. -/
theorem getElem?_of_suffix {x : Char} {rest cs : List Char} {i : ℕ} (suffix : x :: rest <:+ cs)
    (place : i + (rest.length + 1) = cs.length) : cs[i]? = some x := by
  obtain ⟨front, rfl⟩ := suffix
  rw [List.length_append, List.length_cons] at place
  obtain rfl : i = front.length := by omega
  simp

/-- **A group stands between its two parentheses.** -/
theorem places_of_mem_groupsOf (read : Compiled.ofPattern? pattern = .ok c)
    (mem : (kind, s) ∈ groupsOf pattern) :
    pattern.toList[s.opens]? = some '(' ∧ pattern.toList[s.closes]? = some ')' ∧
      s.opens < s.closes := by
  obtain ⟨first, more, d₁, d, finishes⟩ := Call.exists_finishes read
  have bounds := (Call.bounds_of_mem_sites finishes.ends mem).2.1
  obtain ⟨G, within, off, rest, reads, opens, closes⟩ := mem
  obtain ⟨tail, inside, text, -⟩ := reads.opens
  obtain ⟨_, _, inner, _, _, _, -, course⟩ := reads.course
  obtain ⟨first', more', ends', -⟩ := course.inside
  have within' : inner.Within (.whole pattern) :=
    (Call.within_of_mem (course.calls ▸ List.mem_cons_self)).trans within
  have outer : G.text <:+ pattern.toList := (within.suffix finishes.ends off).1
  have inner' : inner.text <:+ pattern.toList :=
    (within'.suffix finishes.ends (course.expanding.trans off)).1
  refine ⟨?_, ?_, bounds⟩
  · rw [text] at outer opens
    exact getElem?_of_suffix outer opens
  · exact getElem?_of_suffix (ends'.suffix.trans inner') closes

/-! ## Numbers in the finished tree -/

namespace Reading.Call.Finishes

/-- What the account of groups is when a pattern has been read. -/
theorem exists_numbers (h : Finishes pattern c first more d₁ d) :
    ∃ unnamed named, Numbered pattern.toList.length (whole pattern) d₁ unnamed named ∧
      ({} : Draft).Numbers d (groupsOf pattern) unnamed named := by
  obtain ⟨unnamed, named, numbered⟩ := h.ends.numbered rfl h.ends (.refl _)
  have root := Draft.sameGroups_of_addsPlain (addsPlain_plantAlternatives h.planted)
  exact ⟨unnamed, named, numbered, numbered.numbers.around ⟨rfl, rfl, rfl⟩ root⟩

end Reading.Call.Finishes

namespace Draft

/-- The number of a group without a name. -/
theorem Numbers.shape?_of_unnamed
    (numbers : ({} : Draft).Numbers d (groupsOf pattern) unnamed named) (sound : d.Sound)
    (root : ℕ) {i : ℕ} (found : unnamed[i]? = some s) :
    ∃ body, (d.finish root).tree.shape? s.node = some (.group body none (some (i + 1))) := by
  have closed := numbers.closed i s found
  have place : ({} : Draft).opened + 1 + i = i + 1 := by
    show 0 + 1 + i = i + 1
    omega
  rw [place] at closed
  exact sound.shape?_of_mem_numbered root closed

/-- The named groups stand in the account as they have been closed. -/
theorem Numbers.getElem?_named
    (numbers : ({} : Draft).Numbers d (groupsOf pattern) unnamed named) (i : ℕ) :
    (d.named.toList[i]?).map Prod.snd = named[i]?.map Site.node := by
  have nodes : d.named.toList.map Prod.snd = named.map Site.node := numbers.nodes
  rw [← List.getElem?_map, nodes, List.getElem?_map]

/-- As many groups without a name have been opened as there are. -/
theorem Numbers.opened_eq (numbers : ({} : Draft).Numbers d (groupsOf pattern) unnamed named) :
    d.opened = unnamed.length :=
  numbers.opened.trans (Nat.zero_add _)

/-- The number of a named group. -/
theorem Numbers.shape?_of_named
    (numbers : ({} : Draft).Numbers d (groupsOf pattern) unnamed named) (sound : d.Sound)
    (distinct : d.Distinct) (root : ℕ) {i : ℕ} (found : named[i]? = some s) :
    ∃ body name, (d.finish root).tree.shape? s.node =
      some (.group body (some name) (some (unnamed.length + i + 1))) := by
  have entry := numbers.getElem?_named i
  rw [found] at entry
  obtain ⟨⟨name, node⟩, look, same⟩ := Option.map_eq_some_iff.1 entry
  obtain rfl : node = s.node := same
  obtain ⟨body, shape⟩ := sound.shape?_of_getElem?_named distinct root look
  rw [numbers.opened_eq, Nat.add_right_comm] at shape
  exact ⟨body, name, shape⟩

end Draft

namespace Compiled

/-- No group has the number zero, which stands for the whole match. -/
theorem pos_of_capture? (read : ofPattern? pattern = .ok c) {id n : ℕ}
    (own : c.tree.capture? id = some n) : 0 < n := by
  obtain ⟨d, adds, finished⟩ := exists_adds_of_ofPattern? read
  have own : (d.finish c.root).tree.capture? id = some n := finished ▸ own
  rcases Draft.capture?_finish own with ⟨-, old⟩ | ⟨name, mem⟩
  · exact adds.grows.fresh id n (Nat.zero_le id) old
  · exact (Nat.zero_le _).trans_lt (Draft.opened_lt_of_mem_numbers mem)

/-- How the groups of a pattern are numbered: `unnamed` are the capturing groups without a name and
`named` those with a name. -/
structure CaptureNumbers (pattern : String) (c : Compiled) (unnamed named : List Site) : Prop where
  /-- Groups stand between two parentheses. -/
  places : ∀ kind s, (kind, s) ∈ groupsOf pattern → pattern.toList[s.opens]? = some '(' ∧
    pattern.toList[s.closes]? = some ')' ∧ s.opens < s.closes
  /-- The groups without a name are all there, and each once. -/
  mem_unnamed : ∀ s, s ∈ unnamed ↔ (.numbered, s) ∈ groupsOf pattern
  /-- So are the named ones. -/
  mem_named : ∀ s, s ∈ named ↔ ∃ name, (.named name, s) ∈ groupsOf pattern
  /-- Groups without a name stand in the order in which they open. -/
  opening : unnamed.Pairwise fun s s' => s.opens < s'.opens
  /-- Named groups stand in the order in which they close. -/
  closing : named.Pairwise fun s s' => s.closes < s'.closes
  /-- Groups without a name have the first numbers. -/
  first : ∀ i s, unnamed[i]? = some s →
    ∃ body, c.tree.shape? s.node = some (.group body none (some (i + 1)))
  /-- Named groups have those behind. -/
  second : ∀ i s, named[i]? = some s →
    ∃ body name, c.tree.shape? s.node =
      some (.group body (some name) (some (unnamed.length + i + 1)))
  /-- Groups that do not capture have none, also those that macros stand for. -/
  plain : ∀ (G : Call) (id : ℕ) (rest : List Char), G.Within (.whole pattern) →
    G.ReadsGroup .plain id rest → ∃ body, c.tree.shape? id = some (.group body none none)
  /-- What macros stand for has no other groups. -/
  macros : ∀ (G : Call) (kind : GroupKind) (id : ℕ) (rest : List Char),
    G.Within (.whole pattern) → G.expanding = true → G.ReadsGroup kind id rest → kind = .plain
  /-- Nothing else has a number. -/
  captures : ∀ id n, c.tree.capture? id = some n ↔
    ∃ i s, (unnamed ++ named)[i]? = some s ∧ s.node = id ∧ n = i + 1
  /-- The numbers are those from one on up to how many groups there are. -/
  numbers : ∀ n, (∃ id, c.tree.capture? id = some n) ↔
    1 ≤ n ∧ n ≤ unnamed.length + named.length
  /-- No number is given twice. -/
  unique : ∀ id id' n, c.tree.capture? id = some n → c.tree.capture? id' = some n → id = id'
  /-- The program knows how many groups there are. -/
  groupCount : c.program.groupCount = unnamed.length + named.length
  /-- No two groups have a slot in common. -/
  apart : ∀ id id' n n', c.tree.capture? id = some n → c.tree.capture? id' = some n' → id ≠ id' →
    Disjoint (groupSlots n) (groupSlots n')
  /-- The slot of a loop is none of a group. -/
  loops : ∀ slot, .progress slot ∈ c.program.insts → slot < c.program.slotCount ∧
    ∀ id n, c.tree.capture? id = some n → slot ∉ groupSlots n
  /-- Positions are kept only in the slots of groups and of loops. -/
  saves : ∀ slot, .save slot ∈ c.program.insts →
    (∃ id n, c.tree.capture? id = some n ∧ slot ∈ groupSlots n) ∨
      .progress slot ∈ c.program.insts

/-- The capturing groups, and their numbers. -/
theorem capture?_iff (read : ofPattern? pattern = .ok c)
    (finishes : Call.Finishes pattern c first more d₁ d)
    (numbers : ({} : Draft).Numbers d (groupsOf pattern) unnamed named) (id n : ℕ) :
    c.tree.capture? id = some n ↔
      ∃ i s, (unnamed ++ named)[i]? = some s ∧ s.node = id ∧ n = i + 1 := by
  have opened := numbers.opened_eq
  have finished := finishes.finished
  constructor
  · intro own
    have pos := pos_of_capture? read own
    have own' : (d.finish c.root).tree.capture? id = some n := finished ▸ own
    rcases Draft.capture?_finish own' with ⟨-, old⟩ | ⟨name, mem⟩
    · -- the group without a name that has this number is the node
      have le := finishes.sound.opened id n old
      rw [opened] at le
      have lt : n - 1 < unnamed.length := by omega
      have found : unnamed[n - 1]? = some unnamed[n - 1] := List.getElem?_eq_getElem lt
      obtain ⟨body, look⟩ := numbers.shape?_of_unnamed finishes.sound c.root found
      rw [finished] at look
      have same : c.tree.capture? unnamed[n - 1].node = some n := by
        rw [Tree.capture?_of_shape? look]
        congr 1
        omega
      have node := (ofPattern?_wellFormed read).unique _ _ n same own
      refine ⟨n - 1, unnamed[n - 1], ?_, node, by omega⟩
      rw [List.getElem?_append_left lt, found]
    · obtain ⟨le, look⟩ := List.mem_zipIdx_iff_le_and_getElem?_sub.1 mem
      have le : d.opened + 1 ≤ n := le
      have entry := numbers.getElem?_named (n - (d.opened + 1))
      rw [look] at entry
      obtain ⟨s, found, node⟩ := Option.map_eq_some_iff.1 entry.symm
      refine ⟨n - 1, s, ?_, node, by omega⟩
      rw [List.getElem?_append_right (by omega), ← found]
      congr 1
      omega
  · rintro ⟨i, s, found, rfl, rfl⟩
    rw [← finished]
    by_cases lt : i < unnamed.length
    · rw [List.getElem?_append_left lt] at found
      obtain ⟨body, look⟩ := numbers.shape?_of_unnamed finishes.sound c.root found
      exact Tree.capture?_of_shape? look
    · rw [List.getElem?_append_right (by omega)] at found
      obtain ⟨body, name, look⟩ :=
        numbers.shape?_of_named finishes.sound finishes.distinct c.root found
      rw [Tree.capture?_of_shape? look]
      congr 1
      omega

/-- What a group is when it has just closed, if it does not capture. -/
theorem shape?_of_closeGroup_plain {d d' d₂ d₃ : Draft} {number : Option ℕ} {body id : ℕ}
    (opens : openGroup .plain d = .ok number d₂)
    (closes : closeGroup .plain number body d₃ = .ok id d') :
    d'.tree.shape? id = some (.group body none none) := by
  cases opens
  cases closes
  exact Draft.shape?_plant_size _ _

/-- A group that does not capture gets no number. -/
theorem shape?_of_readsGroup_plain (finishes : Call.Finishes pattern c first more d₁ d) {G : Call}
    {id : ℕ} {rest : List Char} (within : G.Within (.whole pattern))
    (reads : G.ReadsGroup .plain id rest) :
    ∃ body, c.tree.shape? id = some (.group body none none) := by
  obtain ⟨d', number, inner, body, d₂, d₃, ends, course⟩ := reads.course
  obtain ⟨_, _, _, ends', continues⟩ := finishes.ends_of_within within
  obtain ⟨-, -, rfl⟩ := ends.unique ends'
  have here := shape?_of_closeGroup_plain course.opens course.closes
  have look : d.tree.shape? id = some (.group body none none) :=
    (continues.shapes id (Tree.lt_size_of_shape? here)).trans here
  refine ⟨body, ?_⟩
  rw [← finishes.finished]
  exact finishes.sound.shape?_finish_of look (by simp)

/-- **The groups of a pattern are numbered without gaps**, first those without a name and then the
named ones, and the program keeps them apart. -/
theorem exists_captureNumbers (read : ofPattern? pattern = .ok c) :
    ∃ unnamed named, c.CaptureNumbers pattern unnamed named := by
  obtain ⟨first, more, d₁, d, finishes⟩ := Call.exists_finishes read
  obtain ⟨unnamed, named, -, numbers⟩ := finishes.exists_numbers
  have well := ofPattern?_wellFormed read
  have captures := capture?_iff read finishes numbers
  have all (n : ℕ) : (∃ id, c.tree.capture? id = some n) ↔
      1 ≤ n ∧ n ≤ unnamed.length + named.length := by
    rw [← List.length_append]
    constructor
    · rintro ⟨id, own⟩
      obtain ⟨i, s, found, -, rfl⟩ := (captures id n).1 own
      have lt := (List.getElem?_eq_some_iff.1 found).1
      omega
    · rintro ⟨pos, le⟩
      have lt : n - 1 < (unnamed ++ named).length := by omega
      exact ⟨_, (captures _ n).2 ⟨n - 1, _, List.getElem?_eq_getElem lt, rfl, by omega⟩⟩
  have groupCount : c.program.groupCount = unnamed.length + named.length := by
    apply le_antisymm
    · apply Tree.captureCount_le
      intro id n own
      exact ((all n).1 ⟨id, own⟩).2
    · rcases Nat.eq_zero_or_pos (unnamed.length + named.length) with zero | pos
      · rw [zero]
        exact Nat.zero_le _
      · obtain ⟨id, own⟩ := (all _).2 ⟨pos, le_rfl⟩
        exact Tree.le_captureCount own
  refine ⟨unnamed, named,
    { places := fun kind s => places_of_mem_groupsOf read
      mem_unnamed := numbers.mem_unnamed
      mem_named := numbers.mem_named
      opening := numbers.sorted_unnamed
      closing := numbers.sorted_named
      first := ?_
      second := ?_
      plain := fun G id rest => shape?_of_readsGroup_plain finishes
      macros := fun G kind id rest within on => within.eq_plain finishes.ends rfl on
      captures := captures
      numbers := all
      unique := well.unique
      groupCount := groupCount
      apart := ?_
      loops := ?_
      saves := ?_ }⟩
  · intro i s found
    rw [← finishes.finished]
    exact numbers.shape?_of_unnamed finishes.sound c.root found
  · intro i s found
    rw [← finishes.finished]
    exact numbers.shape?_of_named finishes.sound finishes.distinct c.root found
  · intro id id' n n' own own' ne
    rw [Set.disjoint_left]
    intro slot mem mem'
    rw [mem_groupSlots_iff] at mem mem'
    subst mem
    subst mem'
    exact ne (well.unique id id' _ own own')
  · intro slot mem
    obtain ⟨behind, lt⟩ := (Tree.slots_program well.ordered (Compiled.slotsFit read) slot).1 mem
    refine ⟨lt, fun id n own mem' => ?_⟩
    -- the slots of groups lie in front of those of loops
    have le : n ≤ c.program.groupCount := Tree.le_captureCount own
    have behind : 2 * (c.program.groupCount + 1) ≤ slot := behind
    rw [mem_groupSlots_iff] at mem'
    omega
  · intro slot mem
    have fit := Compiled.slotsFit read
    rcases (Tree.slots_program well.ordered fit slot).2 mem with ⟨id, own⟩ | loop
    · exact .inl ⟨id, slot / 2, own, mem_groupSlots_iff.2 rfl⟩
    · exact .inr loop

/-! ### An example -/

/-- The head of a group with the name `n`. -/
theorem readGroupHead_name (rest : List Char) :
    readGroupHead ('?' :: '<' :: 'n' :: '>' :: rest) = .ok (.named "n", rest) := by
  have stop : isNameChar '>' = false := isNameChar_eq_false (by decide)
  have go : isNameChar 'n' = true := by
    simp only [isNameChar, isAlphanumeric, ← Array.any_toList]
    decide +kernel
  apply readGroupHead_of_readGroupName
  rw [readGroupName, readGroupName_body_eq_ok_iff]
  refine ⟨rfl, ?_, ?_⟩
  · rw [List.takeWhile_cons_of_pos go, List.takeWhile_cons_of_neg (by rw [stop]; decide)]
  · rw [List.dropWhile_cons_of_pos go, List.dropWhile_cons_of_neg (by rw [stop]; decide)]

/-- A named group in front of two groups without names, of which one stands in a loop and the other
one behind a reference. -/
theorem exists_mixed : ∃ c, ofPattern? "(?<n>a)(b)*\\2(c)" = .ok c ∧
    [c.program.groupCount, c.program.slotCount] = [3, 9] ∧
    [1, 3, 7].map c.tree.capture? = [some 3, some 1, some 2] ∧
    c.tree.shape? 5 = some (.backref 1) := by
  have text : (Call.whole "(?<n>a)(b)*\\2(c)").text =
      '(' :: '?' :: '<' :: 'n' :: '>' :: "a)(b)*\\2(c)".toList := by decide +kernel
  let d₁ : Draft := ({} : Draft).plant (.text ['a'])
  let d₂ : Draft := { d₁.plant (.group 0 (some "n") none) with named := #[("n", 1)] }
  have inner : Call.Ends ⟨false, .branches, "a)(b)*\\2(c)".toList, {}⟩ [0]
      ")(b)*\\2(c)".toList d₁ := Call.outcome?_eq_some_iff.1 (by decide +kernel)
  have group : Call.Ends ⟨false, .atom, (Call.whole "(?<n>a)(b)*\\2(c)").text, {}⟩ [1]
      "(b)*\\2(c)".toList d₂ := by
    rw [text]
    exact (Call.Course.group (readGroupHead_name _) rfl inner rfl rfl).toEnds
  have piece := group.bare (by decide +kernel) (by decide +kernel) rfl (by decide +kernel) rfl
  -- what stands behind the group has no names and is read as it is
  have others : ((⟨false, .pieces, "(b)*\\2(c)".toList, d₂⟩ : Call).outcome?.bind fun found =>
      (Call.result? (plantBranch (1 :: found.1)) found.2.2).map fun top =>
        (found.2.1, [(top.2.finish top.1).program.groupCount, (top.2.finish top.1).program.slotCount],
          [1, 3, 7].map (top.2.finish top.1).tree.capture?, (top.2.finish top.1).tree.shape? 5)) =
      some ([], [3, 9], [some 3, some 1, some 2], some (.backref 1)) := by
    decide +kernel
  obtain ⟨⟨ids, rest, d⟩, outcome, eq⟩ := Option.bind_eq_some_iff.1 others
  obtain ⟨⟨root, d₃⟩, planted, facts⟩ := Option.map_eq_some_iff.1 eq
  simp only [Prod.mk.injEq] at facts
  obtain ⟨rfl, program, captures, look⟩ := facts
  have pieces :=
    (Call.Course.next (by decide +kernel) piece (Call.outcome?_eq_some_iff.1 outcome)).toEnds
  have branch := (Call.Course.last pieces (by simp) (Call.result?_eq_some_iff.1 planted)).toEnds
  exact ⟨_, Call.ofPattern?_of_ends branch rfl, program, captures, look⟩

theorem exists_captureNumbers_mixed : ∃ c unnamed named,
    ofPattern? "(?<n>a)(b)*\\2(c)" = .ok c ∧
      c.CaptureNumbers "(?<n>a)(b)*\\2(c)" unnamed named ∧
      unnamed.length + named.length = 3 ∧ c.program.slotCount = 9 ∧
      [1, 3, 7].map c.tree.capture? = [some 3, some 1, some 2] := by
  obtain ⟨c, read, program, captures, -⟩ := exists_mixed
  obtain ⟨unnamed, named, numbered⟩ := exists_captureNumbers read
  simp only [List.cons.injEq, and_true] at program
  obtain ⟨groupCount, slotCount⟩ := program
  exact ⟨c, unnamed, named, read, numbered, numbered.groupCount.symm.trans groupCount, slotCount,
    captures⟩

end Compiled

end PatternSampler
