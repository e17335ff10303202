/-
# What numbers in backreferences mean

A backreference is resolved when it is read, and named groups get their numbers when the whole
pattern has been read.  A number that leads to a group without a name is the number of that group.
A number that leads to a named group is counted from the groups that have been opened so far, so it
falls short of the number of the group by those that open later.

* `Call.ReadsBackref.written` : how a backreference by number is written.
* `Call.ReadsBackref.outside` : no macro stands for a backreference.
* `Draft.groupOfNumber?_cases` : what a number leads to while a pattern is read.
* `Compiled.shape?_of_readsBackref` : what the number of that group is.
-/
import PatternSampler.Proofs.Captures
import PatternSampler.Proofs.Postorder

namespace PatternSampler

open Reading

variable {pattern : String} {c : Compiled} {d : Draft} {number id target : ℕ}

/-! ## Where backreferences are read -/

namespace Reading

variable {cs rest : List Char}

/-- An escape that stands for the number of a group is that number. -/
theorem readEscape_eq_backrefNumber (read : readEscape cs = .ok (.backrefNumber number, rest)) :
    cs.head?.any (fun c => c.isDigit && c != '0') = true ∧ readDecimal cs = .ok (number, rest) := by
  cases cs with
  | nil => cases read
  | cons c cs =>
    rw [readEscape.eq_2] at read
    split at read
    · cases read
    split at read
    · obtain ⟨_, -, same⟩ := bind_eq_ok.1 read
      cases same
    next coded =>
    split at read
    · next digit =>
      obtain ⟨_, decimal, same⟩ := bind_eq_ok.1 read
      cases same
      have zero : c ≠ '0' := fun eq => coded (.inr (.inr eq))
      exact ⟨by simp [digit, zero], decimal⟩
    split at read
    · obtain ⟨_, -, same⟩ := bind_eq_ok.1 read
      cases same
    split at read
    · cases read
    split at read
    · cases read
    split at read
    · cases read
    split at read <;> cases read

/-- A backreference by number is a backslash and the decimal digits of the number, of which the
first is no zero. -/
theorem readAtom_eq_backrefNumber (read : readAtom cs = .ok (.backrefNumber number, rest)) :
    ∃ digits, cs = '\\' :: (digits ++ rest) ∧
      digits.head?.any (fun c => c.isDigit && c != '0') = true ∧
      (∀ c ∈ digits, c.isDigit = true) ∧ Stops Char.isDigit rest ∧ number = numberOf 10 digits := by
  unfold readAtom at read
  split at read
  · cases read
  · obtain ⟨_, -, same⟩ := bind_eq_ok.1 read
    cases same
  · obtain ⟨_, -, same⟩ := bind_eq_ok.1 read
    cases same
  · next cs =>
    obtain ⟨⟨escape, left⟩, escaped, same⟩ := bind_eq_ok.1 read
    cases escape with
    | backrefNumber n =>
      cases same
      obtain ⟨first, decimal⟩ := readEscape_eq_backrefNumber escaped
      obtain ⟨-, rfl, rfl⟩ := readDecimal_eq_ok_iff.1 decimal
      refine ⟨cs.takeWhile Char.isDigit, ?_, ?_, fun _ mem => List.mem_takeWhile_imp mem,
        stops_dropWhile _ _, rfl⟩
      · rw [List.takeWhile_append_dropWhile]
      · cases cs with
        | nil => cases first
        | cons c cs =>
          have digit : c.isDigit = true := (Bool.and_eq_true_iff.1 first).1
          rw [List.takeWhile_cons_of_pos digit]
          exact first
    | char | shorthand | anchor | backrefName => cases same
  · split_ifs at read <;> cases read

/-- A text begins with a backreference. -/
def beginsReference (cs : List Char) : Bool :=
  match readAtom cs with
  | .ok (.backrefNumber _, _) | .ok (.backrefName _, _) => true
  | _ => false

namespace Call

variable {B C : Call} {a : Atom} {ids : List ℕ}

theorem ReadsBackref.begins (reads : B.ReadsBackref a id target) :
    beginsReference B.text = true := by
  obtain ⟨rest, -, read⟩ := reads.text
  have refers := reads.refers
  unfold beginsReference
  rw [read]
  cases a with
  | backrefNumber | backrefName => rfl
  | text | set | macroName => exact refers.elim

/-- **How a backreference by number is written**: behind a backslash stand the decimal digits of the
number, of which the first is no zero, and no more digits follow. -/
theorem ReadsBackref.written (reads : B.ReadsBackref (.backrefNumber number) id target) :
    ∃ digits rest, B.text = '\\' :: (digits ++ rest) ∧
      digits.head?.any (fun c => c.isDigit && c != '0') = true ∧
      (∀ c ∈ digits, c.isDigit = true) ∧ Stops Char.isDigit rest ∧ number = numberOf 10 digits := by
  obtain ⟨rest, -, read⟩ := reads.text
  obtain ⟨digits, written⟩ := readAtom_eq_backrefNumber read
  exact ⟨digits, rest, written⟩

/-- **What macros stand for has no backreferences.** -/
theorem ReadsBackref.outside (reads : B.ReadsBackref a id target) (within : B.Within C)
    (ends : C.Ends ids rest d) (off : C.expanding = false) : B.expanding = false := by
  have none : ∀ entry ∈ macros, ∀ cs ∈ entry.2.toList.tails, beginsReference cs = false := by
    decide +kernel
  rw [Bool.eq_false_iff]
  intro on
  obtain ⟨entry, mem, text⟩ := within.exists_expansion ends off on
  have other := none entry mem B.text ((List.mem_tails _ _).2 text)
  exact Bool.false_ne_true (other.symm.trans reads.begins)

end Call

end Reading

/-! ## Numbers while a pattern is read -/

/-- A number leads to the closed group without a name that has it, or, if no such group has been
opened yet, to a closed named group. -/
theorem Draft.groupOfNumber?_cases (found : d.groupOfNumber? number = some target) :
    (number, target) ∈ d.numbered ∨ d.opened < number ∧
      ∃ name, d.named.toList[number - (d.opened + 1)]? = some (name, target) := by
  unfold groupOfNumber? at found
  split at found
  · next n _ first =>
    cases found
    obtain rfl : n = number := by simpa using Array.find?_some first
    exact .inl (Array.mem_of_find?_eq_some first)
  · split at found
    · next later =>
      obtain ⟨⟨name, _⟩, look, rfl⟩ := Option.map_eq_some_iff.1 found
      rw [← Array.getElem?_toList] at look
      exact .inr ⟨later, name, look⟩
    · cases found

/-! ## Numbers in the finished tree -/

namespace Compiled

/-- **What a number in a backreference means.**  Of the groups without a name, `later` are those
that do not open in front of the backreference.  If the number leads to a group without a name, that
group has the number.  If it leads to a named group, the number of that group is greater by how many
open later. -/
theorem shape?_of_readsBackref (read : ofPattern? pattern = .ok c) {B : Call} {position : ℕ}
    (within : B.Within (.whole pattern)) (reads : B.ReadsBackref (.backrefNumber number) id target)
    (place : position + B.text.length = pattern.toList.length) :
    c.tree.shape? id = some (.backref target) ∧ ∃ later : List Site,
      (∀ s, s ∈ later ↔ (.numbered, s) ∈ groupsOf pattern ∧ position ≤ s.opens) ∧
      later.Pairwise (fun s s' => s.opens < s'.opens) ∧
      ((∃ body, c.tree.shape? target = some (.group body none (some number))) ∨
        ∃ body name,
          c.tree.shape? target = some (.group body (some name) (some (number + later.length)))) := by
  obtain ⟨first, more, d₁, d, finishes⟩ := Call.exists_finishes read
  obtain ⟨unnamed, named, numbered, numbers⟩ := finishes.exists_numbers
  obtain ⟨_, _, _, ends, continues⟩ := finishes.ends_of_within within
  have begins := (ends.continues.trans continues).toBegins
  have off := reads.outside within finishes.ends rfl
  refine ⟨(shape?_eq_backref_iff read id target).2 ⟨B, _, within, reads⟩,
    unnamed.filter (position ≤ ·.opens), fun s => ?_, numbers.sorted_unnamed.filter _, ?_⟩
  · rw [List.mem_filter, numbers.mem_unnamed, decide_eq_true_iff]
  rw [← finishes.finished]
  rcases Draft.groupOfNumber?_cases reads.refers with closed | ⟨later, name, look⟩
  · left
    exact finishes.sound.shape?_of_mem_numbered c.root (begins.mem_numbered closed)
  · right
    obtain ⟨body, shape⟩ := finishes.sound.shape?_of_getElem?_named finishes.distinct c.root
      (begins.getElem?_named look)
    -- of the groups without a name, those in front of the reference have been opened
    have before : B.draft.opened = B.openedBefore pattern.toList.length unnamed :=
      (numbered.before B within off).trans (Nat.zero_add _)
    have split : unnamed.length = B.openedBefore pattern.toList.length unnamed +
        (unnamed.filter (position ≤ ·.opens)).length := by
      rw [List.length_eq_countP_add_countP fun s =>
          s.opens + B.text.length < pattern.toList.length,
        ← List.countP_eq_length_filter, Call.openedBefore]
      congr 1
      apply List.countP_congr
      intro s _
      simp only [decide_eq_true_iff]
      omega
    have number' : d.opened + 1 + (number - (B.draft.opened + 1)) =
        number + (unnamed.filter (position ≤ ·.opens)).length := by
      rw [numbers.opened_eq]
      omega
    rw [number'] at shape
    exact ⟨body, name, shape⟩

/-! ### Examples of both cases -/

/-- Of the texts that a text ends with, those that begin with a backreference refer to a number and
have a given length. -/
def referencesAre (number length : ℕ) (cs : List Char) : Bool :=
  cs.tails.all fun tail =>
    match readAtom tail with
    | .ok (.backrefNumber n, _) => n = number && tail.length = length
    | .ok (.backrefName _, _) => false
    | _ => true

/-- If there is only one backreference in the text of a pattern, that one is read. -/
theorem exists_readsBackref (read : ofPattern? pattern = .ok c) {length : ℕ}
    (only : referencesAre number length pattern.toList = true)
    (look : c.tree.shape? id = some (.backref target)) :
    ∃ B : Call, B.Within (.whole pattern) ∧ B.ReadsBackref (.backrefNumber number) id target ∧
      B.text.length = length := by
  obtain ⟨first, more, d₁, d, finishes⟩ := Call.exists_finishes read
  obtain ⟨B, a, within, reads⟩ := (shape?_eq_backref_iff read id target).1 look
  have off := reads.outside within finishes.ends rfl
  have suffix : B.text <:+ pattern.toList := (within.suffix finishes.ends off).1
  have here := List.all_eq_true.1 only B.text ((List.mem_tails _ _).2 suffix)
  obtain ⟨rest, -, atom⟩ := reads.text
  rw [atom] at here
  have refers := reads.refers
  cases a with
  | backrefNumber n =>
    obtain ⟨same, length⟩ := Bool.and_eq_true_iff.1 here
    obtain rfl := of_decide_eq_true same
    exact ⟨B, within, reads, of_decide_eq_true length⟩
  | backrefName => cases here
  | text | set | macroName => exact refers.elim

/-- The only reference of the pattern is read. -/
theorem exists_readsBackref_mixed : ∃ c, ofPattern? "(?<n>a)(b)*\\2(c)" = .ok c ∧
    c.tree.capture? 1 = some 3 ∧
    ∃ B : Call, B.Within (.whole "(?<n>a)(b)*\\2(c)") ∧ B.ReadsBackref (.backrefNumber 2) 5 1 ∧
      11 + B.text.length = "(?<n>a)(b)*\\2(c)".toList.length := by
  obtain ⟨c, read, -, captures, look⟩ := exists_mixed
  have only : referencesAre 2 5 "(?<n>a)(b)*\\2(c)".toList = true := by decide +kernel
  obtain ⟨B, within, reads, length⟩ := exists_readsBackref read only look
  refine ⟨c, read, (List.cons.inj captures).1, B, within, reads, ?_⟩
  rw [length]
  decide

/-- A reference to a named group, behind which one more group opens. -/
theorem shape?_of_readsBackref_mixed : ∃ c, ofPattern? "(?<n>a)(b)*\\2(c)" = .ok c ∧
    ∃ B : Call, B.Within (.whole "(?<n>a)(b)*\\2(c)") ∧ B.ReadsBackref (.backrefNumber 2) 5 1 ∧
      11 + B.text.length = "(?<n>a)(b)*\\2(c)".toList.length ∧
      c.tree.shape? 5 = some (.backref 1) ∧ c.tree.capture? 1 = some 3 ∧
      ∃ later : List Site, later.length = 1 ∧
        ∀ s, s ∈ later ↔ (.numbered, s) ∈ groupsOf "(?<n>a)(b)*\\2(c)" ∧ 11 ≤ s.opens := by
  obtain ⟨c, read, own, B, within, reads, place⟩ := exists_readsBackref_mixed
  obtain ⟨look, later, mem_iff, -, ⟨body, shape⟩ | ⟨body, name, shape⟩⟩ :=
    shape?_of_readsBackref read within reads place
  · rw [Tree.capture?_of_shape? shape] at own
    cases own
  · have count := Option.some.inj ((Tree.capture?_of_shape? shape).symm.trans own)
    exact ⟨c, read, B, within, reads, place, look, own, later, by omega, mem_iff⟩

/-- A number that leads to a named group need not be the number of that group. -/
theorem exists_readsBackref_other : ∃ c, ofPattern? "(?<n>a)(b)*\\2(c)" = .ok c ∧
    ∃ (B : Call) (id target : ℕ), B.Within (.whole "(?<n>a)(b)*\\2(c)") ∧
      B.ReadsBackref (.backrefNumber 2) id target ∧ c.tree.capture? target = some 3 := by
  obtain ⟨c, read, own, B, within, reads, -⟩ := exists_readsBackref_mixed
  exact ⟨c, read, B, 5, 1, within, reads, own⟩

end Compiled

end PatternSampler
