/-
# Sets under construction

A set begins empty, as a shorthand class or as all characters but one, and then items are inserted.
Its account of accepted characters is raised or lowered with every character that is listed, and by
a fixed amount when the table is widened.  Here the same operations are carried out with an eye on
the table and on the account: they fail where they would leave the table or where the account would
fall below zero.  They never do, and the account is right at every moment.

* `CharSet.build` : a set after any number of operations, `CharSet.build?` : the same, checked.
* `CharSet.Exact` : table, account and verdicts of a set agree.
* `CharSet.build?_eq_and_exact` : every set that is built is exact, and no check fails.
-/
import PatternSampler.Proofs.CharSet.Listing

namespace PatternSampler

namespace CharSet

/-! ## Operations -/

/-- What the construction of a set begins with. -/
inductive Origin where
  /-- Nothing is listed. -/
  | empty (positive : Bool)
  /-- A shorthand class. -/
  | shorthand (kind : Shorthand)
  /-- All characters but one. -/
  | allBut (c : Char)

/-- The set that a construction begins with. -/
def Origin.set : Origin → CharSet
  | empty positive => CharSet.empty positive
  | shorthand kind => ofShorthand kind
  | allBut c => CharSet.allBut c

/-- A set after items were inserted. -/
def build (origin : Origin) (items : List ClassItem) : CharSet :=
  items.foldl insertItem origin.set

/-! ## Checked operations -/

/-- Lists a code point, but fails if the table does not cover it or if the account would fall below
zero. -/
def mark? (set : CharSet) (code : ℕ) : Option CharSet :=
  match set.listed[code]? with
  | none => none
  | some true => some set
  | some false =>
    if set.positive = false ∧ set.choices = 0 then none else some (set.mark code)

/-- Lists a character, checked. -/
def insert? (set : CharSet) (c : Char) : Option CharSet :=
  (if c.toNat < set.listed.size then set else set.widen).mark? c.toNat

/-- Lists characters among consecutive code points, checked. -/
def insertWhere? (keep : Char → Bool) : (count code : ℕ) → CharSet → Option CharSet
  | 0, _, set => some set
  | count + 1, code, set =>
    (if code.isValidChar ∧ keep (Char.ofNat code) then set.insert? (Char.ofNat code)
      else some set).bind (insertWhere? keep count (code + 1))

/-- Lists the characters of an item, checked. -/
def insertItem? (set : CharSet) : ClassItem → Option CharSet
  | .char c => set.insert? c
  | .range first last =>
    insertWhere? (fun _ => true) (last.toNat + 1 - first.toNat) first.toNat set
  | .shorthand kind =>
    let set := if kind.negated then set.widen else set
    insertWhere? kind.accepts set.listed.size 0 set

/-- The set that a construction begins with, checked. -/
def Origin.set? : Origin → Option CharSet
  | empty positive => some (CharSet.empty positive)
  | shorthand kind => insertWhere? kind.core asciiSize 0 (CharSet.empty !kind.negated)
  | allBut c =>
    if c ≤ lastChar then (CharSet.empty false).insert? c else some (CharSet.empty false).widen

/-- A set after items were inserted, checked. -/
def build? (origin : Origin) (items : List ClassItem) : Option CharSet :=
  origin.set?.bind (items.foldlM insertItem?)

/-! ## No check fails -/

variable {set : CharSet} {code : ℕ}

/-- An unlisted character of a negative set has been counted. -/
theorem Counted.choices_ne_zero (h : set.Counted) (negative : set.positive = false)
    (valid : code.isValidChar) (unlisted : set.listed[code]? = some false) : set.choices ≠ 0 := by
  have mem : code ∈ set.candidates false :=
    mem_candidates_false.2 ⟨valid, by rw [unlisted, negative]⟩
  rw [h.choices]
  exact Finset.card_ne_zero_of_mem mem

theorem Counted.mark?_eq (h : set.Counted) (valid : code.isValidChar)
    (covered : code < set.listed.size) : set.mark? code = some (set.mark code) := by
  unfold CharSet.mark?
  split
  · next beyond => exact absurd covered (not_lt.2 (Array.getElem?_eq_none_iff.1 beyond))
  · next listed =>
    rw [CharSet.mark, listed, if_neg]
    simp
  · next unlisted =>
    exact if_neg fun below => h.choices_ne_zero below.1 valid unlisted below.2

theorem Counted.insert?_eq (h : set.Counted) {c : Char} (small : c ≤ lastChar) :
    set.insert? c = some (set.insert c) := by
  unfold CharSet.insert? CharSet.insert
  split
  · next covered => exact h.mark?_eq c.valid covered
  · exact h.widen.mark?_eq c.valid (h.size_widen.symm ▸ le_lastChar_iff.1 small)

theorem Counted.insertWhere?_eq (h : set.Counted) (keep : Char → Bool) {count start : ℕ}
    (small : start + count ≤ wideSize) :
    CharSet.insertWhere? keep count start set = some (CharSet.insertWhere keep count start set) := by
  induction count generalizing start set with
  | zero => rfl
  | succ count ih =>
    unfold CharSet.insertWhere? CharSet.insertWhere
    split
    · next ok =>
      have fits : Char.ofNat start ≤ lastChar := by
        rw [le_lastChar_iff, toNat_ofNat ok.1]
        omega
      rw [h.insert?_eq fits]
      exact ih (h.insert _) (by omega)
    · exact ih h (by omega)

theorem Counted.insertItem?_eq (h : set.Counted) {item : ClassItem} (fits : item.Fits) :
    set.insertItem? item = some (set.insertItem item) := by
  cases item with
  | char c => exact h.insert?_eq fits
  | range first last =>
    obtain ⟨inOrder, small⟩ : first ≤ last ∧ last ≤ lastChar := fits
    have inOrder : first.toNat ≤ last.toNat := inOrder
    have small := le_lastChar_iff.1 small
    exact h.insertWhere?_eq _ (by omega)
  | shorthand kind =>
    have all {s : CharSet} (counted : s.Counted) : CharSet.insertWhere? kind.accepts s.listed.size 0 s =
        some (CharSet.insertWhere kind.accepts s.listed.size 0 s) :=
      counted.insertWhere?_eq _ (by rw [Nat.zero_add]; exact counted.size_le)
    apply all
    split
    · exact h.widen
    · exact h

theorem Origin.counted (origin : Origin) : origin.set.Counted := by
  cases origin with
  | empty positive => exact counted_empty positive
  | shorthand kind => exact counted_ofShorthand kind
  | allBut c => exact counted_allBut c

theorem Origin.set?_eq (origin : Origin) : origin.set? = some origin.set := by
  cases origin with
  | empty positive => rfl
  | shorthand kind =>
    refine (counted_empty _).insertWhere?_eq _ ?_
    rw [Nat.zero_add]
    exact asciiSize_le_wideSize
  | allBut c =>
    rw [Origin.set?, Origin.set, CharSet.allBut]
    split
    · next small => exact (counted_empty false).insert?_eq small
    · rfl

theorem counted_build (origin : Origin) (items : List ClassItem) : (build origin items).Counted :=
  origin.counted.foldl items

theorem Counted.foldlM_eq (h : set.Counted) {items : List ClassItem}
    (fits : ∀ item ∈ items, item.Fits) :
    items.foldlM insertItem? set = some (items.foldl CharSet.insertItem set) := by
  induction items generalizing set with
  | nil => rfl
  | cons item items ih =>
    obtain ⟨first, others⟩ := List.forall_mem_cons.1 fits
    rw [List.foldlM_cons, List.foldl_cons, h.insertItem?_eq first]
    exact ih (h.insertItem item) others

/-- Neither the table nor the account gets into a state in which an operation fails. -/
theorem build?_eq (origin : Origin) {items : List ClassItem} (fits : ∀ item ∈ items, item.Fits) :
    build? origin items = some (build origin items) := by
  rw [build?, origin.set?_eq]
  exact origin.counted.foldlM_eq fits

/-! ## The account -/

/-- Only characters are listed. -/
theorem isValidChar_of_lists_build {origin : Origin} {items : List ClassItem}
    (h : (build origin items).lists code = true) : code.isValidChar := by
  rcases (origin.counted.lists_foldl items code).1 h with old | ⟨valid, -⟩
  · cases origin with
    | empty positive => cases (lists_empty positive code).symm.trans old
    | shorthand kind => exact ((lists_ofShorthand kind code).1 old).1
    | allBut c =>
      obtain ⟨rfl, -⟩ := (lists_allBut c code).1 old
      exact c.valid
  · exact valid

/-- Candidates are as many as the characters that they are. -/
theorem ncard_candidates (set : CharSet) (invert : Bool) :
    {c : Char | c.toNat < set.listed.size ∧ set.accepts c = !invert}.ncard =
      (set.candidates invert).card := by
  have characters : {c : Char | c.toNat < set.listed.size ∧ set.accepts c = !invert} =
      ((set.offered invert).toFinset : Set Char) := by
    ext c
    rw [Finset.mem_coe, List.mem_toFinset, mem_offered_iff_toNat_mem, toNat_mem_candidates]
    exact Iff.rfl
  have distinct : (set.offered invert).Nodup :=
    (pairwise_offered set invert).imp fun lt => ne_of_lt lt
  rw [characters, Set.ncard_coe_finset, List.toFinset_card_of_nodup distinct, length_offered]

/-- Table, account and verdicts of a set agree. -/
structure Exact (set : CharSet) : Prop where
  /-- The table covers ASCII or the first 65536 code points. -/
  size : set.listed.size = 128 ∨ set.listed.size = 65536
  /-- No surrogate is listed. -/
  isValidChar : ∀ code : ℕ, set.listed[code]? = some true → code.isValidChar
  /-- The characters of the table that are accepted are counted. -/
  selectable : set.selectable =
    {c : Char | c.toNat < set.listed.size ∧ set.accepts c = true}.ncard
  /-- The account does not exceed the number of characters of the table. -/
  choices_le : set.choices ≤ set.extent
  /-- The characters of the table that are rejected are counted. -/
  excludable : set.excludable =
    {c : Char | c.toNat < set.listed.size ∧ set.accepts c = false}.ncard
  /-- A set can be invalidated if it rejects a character of its table. -/
  isInvalidatable : set.isInvalidatable = true ↔
    ∃ c : Char, c.toNat < set.listed.size ∧ set.accepts c = false
  /-- Widening changes no verdict. -/
  widen : ∀ c : Char, set.widen.accepts c = set.accepts c

theorem Counted.choices_le (h : set.Counted) : set.choices ≤ set.extent := by
  rw [h.choices, ← card_covered h.size]
  refine Finset.card_le_card fun code mem => ?_
  obtain ⟨lt, ok⟩ := mem_candidates.1 mem
  exact Finset.mem_filter.2
    ⟨Finset.mem_range.2 lt, of_decide_eq_true (Bool.and_eq_true_iff.1 ok).1⟩

theorem Counted.isInvalidatable_iff (h : set.Counted) : set.isInvalidatable = true ↔
    ∃ c : Char, c.toNat < set.listed.size ∧ set.accepts c = false := by
  rw [CharSet.isInvalidatable, decide_eq_true_eq, h.excludable, Finset.card_pos]
  constructor
  · rintro ⟨code, mem⟩
    obtain ⟨c, mem⟩ := exists_mem_candidates (Finset.card_ne_zero_of_mem mem)
    exact ⟨c, toNat_mem_candidates.1 mem⟩
  · rintro ⟨c, rejected⟩
    exact ⟨c.toNat, toNat_mem_candidates.2 rejected⟩

/-- **Every set that is built is exact**, and on the way to it the table is never left and the
account never falls below zero. -/
theorem build?_eq_and_exact (origin : Origin) {items : List ClassItem}
    (fits : ∀ item ∈ items, item.Fits) :
    build? origin items = some (build origin items) ∧ (build origin items).Exact := by
  have counted := counted_build origin items
  refine ⟨build?_eq origin fits, ?_⟩
  exact {
    size := counted.size
    isValidChar := fun code listed =>
      isValidChar_of_lists_build (lists_eq_true_iff.2 listed)
    selectable := counted.choices.trans (ncard_candidates _ false).symm
    choices_le := counted.choices_le
    excludable := counted.excludable.trans (ncard_candidates _ true).symm
    isInvalidatable := counted.isInvalidatable_iff
    widen := accepts_widen _ }

/-- Items that repeat characters and widen the table in the middle. -/
def overlapping : List ClassItem :=
  [.range 'a' 'z', .char 'q', .shorthand .nonDigit, .range 'x' '\u00E9']

/-- A negative set that lists characters again and is widened on the way. -/
theorem build?_eq_and_exact_overlapping : (∀ item ∈ overlapping, item.Fits) ∧
    build? (.allBut 'q') overlapping = some (build (.allBut 'q') overlapping) ∧
    (build (.allBut 'q') overlapping).Exact :=
  ⟨by decide, build?_eq_and_exact (.allBut 'q') (by decide)⟩

end CharSet

end PatternSampler
