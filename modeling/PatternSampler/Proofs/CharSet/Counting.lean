/-
# Counting the characters of a set

A set keeps account of how many characters of its table it accepts, and a choice looks up the
candidate of a given rank.  The account stays right whatever is listed, so every candidate has a
rank that can be drawn.

* `CharSet.candidates` are the code points that a choice may return, `CharSet.offered` the
  characters, in order.
* `CharSet.Counted` says that the account is right; `Counted.insert`, `counted_ofItems` and
  `counted_ofShorthand` say that it stays right.
* `CharSet.nth?_eq_getElem?` : looking a rank up is looking it up among them; with
  `CharSet.nth?_mem`, `CharSet.exists_nth?` and `CharSet.exists_nth?_of_lt` the choice of a rank is
  exact.
* `CharSet.Counted.count` : accepted and rejected characters are both counted.
-/
import Mathlib
import PatternSampler.CharSet.Runs

namespace PatternSampler

namespace CharSet

variable {set : CharSet} {invert : Bool}

/-! ## Candidates -/

/-- The code points of the table that a choice may return. -/
def candidates (set : CharSet) (invert : Bool) : Finset ℕ :=
  {code ∈ Finset.range set.listed.size | set.isCandidate invert code = true}

/-- The candidates are the code points of the table that a choice may return. -/
theorem mem_candidates {code : ℕ} :
    code ∈ set.candidates invert ↔
      code < set.listed.size ∧ set.isCandidate invert code = true := by
  rw [candidates, Finset.mem_filter, Finset.mem_range]

theorem toNat_ofNat {code : ℕ} (valid : code.isValidChar) : (Char.ofNat code).toNat = code := by
  rw [Char.ofNat, dif_pos valid]
  rfl

/-- A character is a candidate if the table has it and the set accepts it, or rejects it where the
choice is inverted. -/
theorem toNat_mem_candidates {c : Char} :
    c.toNat ∈ set.candidates invert ↔
      c.toNat < set.listed.size ∧ set.accepts c = !invert := by
  have valid : c.toNat.isValidChar := c.valid
  rw [mem_candidates, isCandidate, Char.ofNat_toNat]
  cases invert <;> simp [valid]

/-- Where candidates are counted there are characters. -/
theorem exists_mem_candidates (some : (set.candidates invert).card ≠ 0) :
    ∃ c : Char, c.toNat ∈ set.candidates invert := by
  obtain ⟨code, mem⟩ := Finset.card_ne_zero.1 some
  have valid : code.isValidChar :=
    of_decide_eq_true (Bool.and_eq_true_iff.1 (mem_candidates.1 mem).2).1
  exact ⟨Char.ofNat code, by rwa [toNat_ofNat valid]⟩

/-! ## Candidates in order -/

/-- The code points that a choice may return, in ascending order. -/
def places (set : CharSet) (invert : Bool) : List ℕ :=
  (List.range' 0 set.listed.size).filter (set.isCandidate invert)

/-- The characters that a choice may return, in code point order. -/
def offered (set : CharSet) (invert : Bool) : List Char :=
  (set.places invert).map Char.ofNat

theorem mem_places {code : ℕ} : code ∈ set.places invert ↔ code ∈ set.candidates invert := by
  rw [places, List.mem_filter, List.mem_range'_1, mem_candidates, Nat.zero_add,
    and_iff_right (Nat.zero_le code)]

theorem isValidChar_of_mem_places {code : ℕ} (mem : code ∈ set.places invert) :
    code.isValidChar :=
  of_decide_eq_true (Bool.and_eq_true_iff.1 (List.mem_filter.1 mem).2).1

theorem mem_offered_iff_toNat_mem {c : Char} :
    c ∈ set.offered invert ↔ c.toNat ∈ set.candidates invert := by
  rw [offered, List.mem_map, ← mem_places]
  constructor
  · rintro ⟨code, mem, rfl⟩
    rwa [toNat_ofNat (isValidChar_of_mem_places mem)]
  · intro mem
    exact ⟨c.toNat, mem, Char.ofNat_toNat c⟩

/-- What may be chosen are the characters of the table that the set accepts or, where the choice is
inverted, rejects. -/
theorem mem_offered {c : Char} : c ∈ set.offered invert ↔
    c.toNat < set.listed.size ∧ set.accepts c ≠ invert := by
  rw [mem_offered_iff_toNat_mem, toNat_mem_candidates, Bool.eq_not]

/-- The places are in ascending order. -/
theorem pairwise_places (set : CharSet) (invert : Bool) : (set.places invert).Pairwise (· < ·) :=
  (List.pairwise_lt_range' (s := 0)).filter _

/-- The characters are in code point order, and none occurs twice. -/
theorem pairwise_offered (set : CharSet) (invert : Bool) :
    (set.offered invert).Pairwise (· < ·) := by
  rw [offered, List.pairwise_map]
  refine (pairwise_places set invert).imp_of_mem fun {code code'} mem mem' lt => ?_
  rw [Char.lt_def, UInt32.lt_iff_toNat_lt]
  show (Char.ofNat code).toNat < (Char.ofNat code').toNat
  rwa [toNat_ofNat (isValidChar_of_mem_places mem), toNat_ofNat (isValidChar_of_mem_places mem')]

/-- There are as many characters in order as there are candidates. -/
theorem length_offered (set : CharSet) (invert : Bool) :
    (set.offered invert).length = (set.candidates invert).card := by
  have distinct : (set.places invert).Nodup :=
    (pairwise_places set invert).imp fun lt => Nat.ne_of_lt lt
  have codes : (set.places invert).toFinset = set.candidates invert := by
    ext code
    rw [List.mem_toFinset, mem_places]
  rw [offered, List.length_map, ← List.toFinset_card_of_nodup distinct, codes]

/-! ## Looking up a rank -/

/-- The look-up goes through the candidates in their order. -/
theorem nthFrom?_eq_getElem? (set : CharSet) (invert : Bool) (count code rank : ℕ) :
    set.nthFrom? invert count code rank =
      (((List.range' code count).filter (set.isCandidate invert)).map Char.ofNat)[rank]? := by
  induction count generalizing code rank with
  | zero => rfl
  | succ count ih =>
    rw [List.range'_succ, List.filter_cons]
    unfold nthFrom?
    by_cases candidate : set.isCandidate invert code = true
    · rw [if_pos candidate, if_pos candidate, List.map_cons]
      cases rank with
      | zero => rfl
      | succ rank => exact ih (code + 1) rank
    · rw [if_neg candidate, if_neg candidate]
      exact ih (code + 1) rank

/-- **The character of a rank** is the one at that place. -/
theorem nth?_eq_getElem? (set : CharSet) (invert : Bool) (rank : ℕ) :
    set.nth? invert rank = (set.offered invert)[rank]? :=
  nthFrom?_eq_getElem? set invert set.listed.size 0 rank

/-- What is found at a rank is a candidate. -/
theorem nth?_mem {rank : ℕ} {c : Char} (h : set.nth? invert rank = some c) :
    c.toNat ∈ set.candidates invert := by
  rw [nth?_eq_getElem?] at h
  exact mem_offered_iff_toNat_mem.1 (List.mem_of_getElem? h)

/-- **Every candidate has a rank**, one below the number of candidates. -/
theorem exists_nth? {c : Char} (mem : c.toNat ∈ set.candidates invert) :
    ∃ rank < (set.candidates invert).card, set.nth? invert rank = some c := by
  obtain ⟨rank, lt, eq⟩ := List.getElem_of_mem (mem_offered_iff_toNat_mem.2 mem)
  refine ⟨rank, by rwa [← length_offered], ?_⟩
  rw [nth?_eq_getElem?, List.getElem?_eq_getElem lt, eq]

/-- **Every rank has a candidate**, if it is below the number of candidates. -/
theorem exists_nth?_of_lt {rank : ℕ} (lt : rank < (set.candidates invert).card) :
    ∃ c, set.nth? invert rank = some c := by
  rw [← length_offered] at lt
  exact ⟨_, by rw [nth?_eq_getElem?, List.getElem?_eq_getElem lt]⟩

/-! ## The account of accepted characters -/

/-- The table has one of its two sizes, and the account of accepted characters is right. -/
structure Counted (set : CharSet) : Prop where
  size : set.listed.size = asciiSize ∨ set.listed.size = wideSize
  choices : set.choices = (set.candidates false).card

/-- A set that lists nothing is counted. -/
theorem counted_empty (positive : Bool) : (empty positive).Counted where
  size := Or.inl Array.size_replicate
  choices := by cases positive <;> decide +kernel

/-- A code point of the table is a candidate of a choice that is not inverted if it is a character
and listed in a positive set or unlisted in a negative one. -/
theorem mem_candidates_false {code : ℕ} :
    code ∈ set.candidates false ↔
      code.isValidChar ∧ set.listed[code]? = some set.positive := by
  rw [mem_candidates]
  constructor
  · rintro ⟨lt, ok⟩
    rw [isCandidate, Bool.and_eq_true, decide_eq_true_eq, Bool.bne_false, accepts] at ok
    obtain ⟨valid, ok⟩ := ok
    rw [toNat_ofNat valid, beq_iff_eq, Array.getD_eq_getD_getElem?, Array.getElem?_eq_getElem lt,
      Option.getD_some] at ok
    exact ⟨valid, by rw [Array.getElem?_eq_getElem lt, ok]⟩
  · rintro ⟨valid, look⟩
    obtain ⟨lt, -⟩ := Array.getElem?_eq_some_iff.1 look
    refine ⟨lt, ?_⟩
    rw [isCandidate, Bool.and_eq_true, decide_eq_true_eq, Bool.bne_false, accepts]
    rw [toNat_ofNat valid, beq_iff_eq, Array.getD_eq_getD_getElem?, look, Option.getD_some]
    exact ⟨valid, rfl⟩

/-! ### Widening -/

/-- The characters between the end of the narrow table and that of the wide one. -/
def added : Finset ℕ :=
  {code ∈ Finset.range wideSize | asciiSize ≤ code ∧ code.isValidChar}

theorem mem_added {code : ℕ} :
    code ∈ added ↔ code < wideSize ∧ asciiSize ≤ code ∧ code.isValidChar := by
  rw [added, Finset.mem_filter, Finset.mem_range]

/-- There are no surrogates among what a table gains. -/
theorem card_added : added.card = wideSize - surrogateCount - asciiSize := by
  have split : added = Finset.Ico asciiSize 0xD800 ∪ Finset.Ico 0xE000 wideSize := by
    ext code
    rw [mem_added, Finset.mem_union, Finset.mem_Ico, Finset.mem_Ico]
    unfold Nat.isValidChar asciiSize wideSize
    omega
  have apart : Disjoint (Finset.Ico asciiSize 0xD800) (Finset.Ico 0xE000 wideSize) := by
    rw [Finset.disjoint_left]
    intro code first second
    rw [Finset.mem_Ico] at first second
    omega
  rw [split, Finset.card_union_of_disjoint apart, Nat.card_Ico, Nat.card_Ico]
  rfl

theorem not_isWide (narrow : set.listed.size = asciiSize) : ¬ set.isWide = true := by
  rw [isWide, narrow]
  decide

theorem size_widen (narrow : set.listed.size = asciiSize) : set.widen.listed.size = wideSize := by
  rw [widen, if_neg (not_isWide narrow), Array.size_append, narrow, Array.size_replicate]
  rfl

/-- Widening lists nothing. -/
theorem getElem?_widen (narrow : set.listed.size = asciiSize) (code : ℕ) :
    set.widen.listed[code]? =
      if code < asciiSize then set.listed[code]? else
        if code < wideSize then some false else none := by
  rw [widen, if_neg (not_isWide narrow), Array.getElem?_append, narrow, Array.getElem?_replicate]
  refine ite_congr rfl (fun _ => rfl) fun le => if_congr ?_ rfl rfl
  unfold asciiSize wideSize at *
  omega

theorem positive_widen (set : CharSet) : set.widen.positive = set.positive := by
  unfold widen
  split <;> rfl

theorem positive_mark (set : CharSet) (code : ℕ) : (set.mark code).positive = set.positive := by
  unfold mark
  split <;> rfl

/-- A negative set accepts the characters that widening adds, a positive one does not. -/
theorem candidates_widen (narrow : set.listed.size = asciiSize) :
    set.widen.candidates false =
      if set.positive then set.candidates false else set.candidates false ∪ added := by
  have bound {code : ℕ} {b : Bool} (look : set.listed[code]? = some b) : code < asciiSize :=
    narrow ▸ (Array.getElem?_eq_some_iff.1 look).1
  have narrow_le : asciiSize ≤ wideSize := by decide
  cases sign : set.positive <;> ext code
  · rw [if_neg Bool.false_ne_true, Finset.mem_union, mem_candidates_false, mem_candidates_false,
      mem_added, getElem?_widen narrow, positive_widen, sign]
    constructor
    · rintro ⟨valid, look⟩
      split at look
      · exact Or.inl ⟨valid, look⟩
      · split at look
        · exact Or.inr ⟨‹_›, not_lt.1 ‹_›, valid⟩
        · cases look
    · rintro (⟨valid, look⟩ | ⟨lt, le, valid⟩)
      · exact ⟨valid, by rwa [if_pos (bound look)]⟩
      · exact ⟨valid, by rw [if_neg (not_lt.2 le), if_pos lt]⟩
  · rw [if_pos rfl, mem_candidates_false, mem_candidates_false, getElem?_widen narrow,
      positive_widen, sign]
    refine and_congr_right fun _ => ⟨fun look => ?_, fun look => by rwa [if_pos (bound look)]⟩
    split at look
    · exact look
    · split at look <;> cases look

/-- **Widening keeps the account right.** -/
theorem Counted.widen (h : set.Counted) : set.widen.Counted := by
  by_cases wide : set.isWide = true
  · rw [CharSet.widen, if_pos wide]
    exact h
  have narrow : set.listed.size = asciiSize :=
    h.size.resolve_right fun eq => wide (beq_iff_eq.2 eq)
  have apart : Disjoint (set.candidates false) added := by
    rw [Finset.disjoint_left]
    intro code old new
    exact absurd (mem_added.1 new).2.1 (not_le.2 (narrow ▸ (mem_candidates.1 old).1))
  refine ⟨Or.inr (size_widen narrow), ?_⟩
  rw [candidates_widen narrow, CharSet.widen, if_neg wide]
  cases sign : set.positive
  · rw [if_neg Bool.false_ne_true, if_neg Bool.false_ne_true, Finset.card_union_of_disjoint apart,
      card_added, h.choices]
  · rw [if_pos rfl, if_pos rfl, h.choices]

/-! ### Listing -/

/-- Listing an unlisted character adds it to the candidates of a positive set and takes it from
those of a negative one. -/
theorem candidates_mark {code : ℕ} (valid : code.isValidChar)
    (unlisted : set.listed[code]? = some false) :
    (set.mark code).candidates false =
      if set.positive then Insert.insert code (set.candidates false)
      else (set.candidates false).erase code := by
  obtain ⟨lt, -⟩ := Array.getElem?_eq_some_iff.1 unlisted
  have look (other : ℕ) : (set.mark code).listed[other]? =
      if code = other then some true else set.listed[other]? := by
    rw [mark, if_pos unlisted]
    simp only [Array.getElem?_setIfInBounds]
    refine ite_congr rfl (fun eq => ?_) fun _ => rfl
    rw [if_pos lt]
  cases sign : set.positive <;> ext other
  · rw [if_neg Bool.false_ne_true, Finset.mem_erase, mem_candidates_false, mem_candidates_false,
      look, positive_mark, sign]
    by_cases eq : code = other
    · simp [eq]
    · simp [eq, Ne.symm eq]
  · rw [if_pos rfl, Finset.mem_insert, mem_candidates_false, mem_candidates_false, look,
      positive_mark, sign]
    by_cases eq : code = other
    · simp [← eq, valid]
    · simp [eq, Ne.symm eq]

/-- **Listing a character keeps the account right.** -/
theorem Counted.mark (h : set.Counted) {code : ℕ} (valid : code.isValidChar) :
    (set.mark code).Counted := by
  by_cases unlisted : set.listed[code]? = some false
  · have mem : code ∈ set.candidates false ↔ set.positive = false := by
      rw [mem_candidates_false, unlisted, Option.some.injEq]
      exact ⟨fun both => both.2.symm, fun eq => ⟨valid, eq.symm⟩⟩
    refine ⟨?_, ?_⟩
    · rw [CharSet.mark, if_pos unlisted, Array.size_setIfInBounds]
      exact h.size
    · rw [candidates_mark valid unlisted, CharSet.mark, if_pos unlisted]
      cases sign : set.positive
      · rw [if_neg Bool.false_ne_true, if_neg Bool.false_ne_true,
          Finset.card_erase_of_mem (mem.2 sign), h.choices]
      · have new : code ∉ set.candidates false := fun old => by simp [mem.1 old] at sign
        rw [if_pos rfl, if_pos rfl, Finset.card_insert_of_notMem new, h.choices]
  · rw [CharSet.mark, if_neg unlisted]
    exact h

/-- One more character is counted. -/
theorem Counted.insert (h : set.Counted) (c : Char) : (set.insert c).Counted := by
  unfold CharSet.insert
  split
  · exact h.mark c.valid
  · exact h.widen.mark c.valid

/-- More characters are counted. -/
theorem Counted.insertWhere (h : set.Counted) (keep : Char → Bool) (count code : ℕ) :
    (CharSet.insertWhere keep count code set).Counted := by
  induction count generalizing code set with
  | zero => exact h
  | succ count ih =>
    unfold CharSet.insertWhere
    split
    · exact ih (h.insert _) _
    · exact ih h _

/-- More items are counted. -/
theorem Counted.insertItem (h : set.Counted) (item : ClassItem) : (set.insertItem item).Counted := by
  cases item with
  | char c => exact h.insert c
  | range first last => exact h.insertWhere _ _ _
  | shorthand kind =>
    show (CharSet.insertWhere kind.accepts _ 0 (if kind.negated then set.widen else set)).Counted
    split
    · exact h.widen.insertWhere _ _ _
    · exact h.insertWhere _ _ _

theorem Counted.foldl (h : set.Counted) (items : List ClassItem) :
    (items.foldl CharSet.insertItem set).Counted :=
  List.foldlRecOn items CharSet.insertItem h fun _ h item _ => h.insertItem item

/-- **The account of a set that is built from items is right.** -/
theorem counted_ofItems (positive : Bool) (items : List ClassItem) :
    (ofItems positive items).Counted :=
  (counted_empty positive).foldl items

/-! ### All but one character -/

theorem getElem?_mark_self {code : ℕ} (lt : code < set.listed.size) :
    (set.mark code).listed[code]? = some true := by
  unfold mark
  split
  · exact Array.getElem?_setIfInBounds_self_of_lt lt
  · next listed =>
    rw [Array.getElem?_eq_getElem lt] at listed ⊢
    simpa using listed

/-- The set of all characters but one does not offer that character. -/
theorem ne_of_mem_candidates_allBut {c other : Char}
    (mem : other.toNat ∈ (allBut c).candidates false) : other ≠ c := by
  rintro rfl
  unfold allBut at mem
  split at mem
  · next small =>
    obtain ⟨-, look⟩ := mem_candidates_false.1 mem
    have lt : other.toNat < wideSize := Nat.lt_succ_of_le (Char.le_def.1 small)
    unfold CharSet.insert at look
    rw [positive_mark] at look
    split at look
    · next inside =>
      rw [getElem?_mark_self inside] at look
      cases look
    · rw [getElem?_mark_self (by rw [size_widen Array.size_replicate]; exact lt),
        positive_widen] at look
      cases look
  · next large =>
    have lt := (mem_candidates.1 mem).1
    rw [size_widen Array.size_replicate] at lt
    exact large (Char.le_def.2 (Nat.le_of_lt_succ lt))

/-- Some character other than a given one can always be chosen. -/
theorem selectable_allBut (c : Char) : (allBut c).selectable ≠ 0 := by
  -- at most one of the characters of the narrow table is listed
  have mark {set : CharSet} (many : 2 ≤ set.choices) (code : ℕ) :
      (set.mark code).choices ≠ 0 := by
    unfold CharSet.mark
    split
    · dsimp only
      split <;> omega
    · omega
  have narrow : 2 ≤ (empty false).choices := by decide
  have wide : 2 ≤ (empty false).widen.choices := by
    rw [CharSet.widen, if_neg (not_isWide Array.size_replicate)]
    exact narrow.trans (Nat.le_add_right _ _)
  unfold selectable allBut CharSet.insert
  split
  · split
    · exact mark narrow _
    · exact mark wide _
  · omega

/-- A set of all characters but one is counted. -/
theorem counted_allBut (c : Char) : (allBut c).Counted := by
  unfold allBut
  split
  · exact (counted_empty false).insert c
  · exact (counted_empty false).widen

/-- The set of a class is counted. -/
theorem counted_ofShorthand (kind : Shorthand) : (ofShorthand kind).Counted :=
  (counted_empty _).insertWhere _ _ _

/-! ### Rejected characters -/

/-- The characters that the table covers. -/
theorem card_covered (size : set.listed.size = asciiSize ∨ set.listed.size = wideSize) :
    ({code ∈ Finset.range set.listed.size | code.isValidChar} : Finset ℕ).card = set.extent := by
  have below : ({code ∈ Finset.range asciiSize | code.isValidChar} : Finset ℕ) =
      Finset.range asciiSize := by
    refine Finset.filter_true_of_mem fun code mem => ?_
    have lt := Finset.mem_range.1 mem
    unfold asciiSize at lt
    exact .inl (by omega)
  rcases size with narrow | wide
  · rw [narrow, below, Finset.card_range, extent, if_neg (not_isWide narrow)]
  · have split : ({code ∈ Finset.range wideSize | code.isValidChar} : Finset ℕ) =
        Finset.range asciiSize ∪ added := by
      ext code
      rw [Finset.mem_filter, Finset.mem_union, Finset.mem_range, Finset.mem_range, mem_added]
      unfold Nat.isValidChar asciiSize wideSize
      omega
    have apart : Disjoint (Finset.range asciiSize) added := by
      rw [Finset.disjoint_left]
      exact fun code low high => absurd (Finset.mem_range.1 low) (not_lt.2 (mem_added.1 high).2.1)
    have isWide : set.isWide = true := beq_iff_eq.2 wide
    rw [wide, split, Finset.card_union_of_disjoint apart, Finset.card_range, card_added, extent,
      if_pos isWide]
    rfl

/-- **The account of rejected characters is right** if that of accepted ones is. -/
theorem Counted.excludable (h : set.Counted) : set.excludable = (set.candidates true).card := by
  have split : ({code ∈ Finset.range set.listed.size | code.isValidChar} : Finset ℕ) =
      set.candidates false ∪ set.candidates true := by
    ext code
    rw [Finset.mem_filter, Finset.mem_union, Finset.mem_range, mem_candidates, mem_candidates,
      isCandidate, isCandidate]
    cases set.accepts (Char.ofNat code) <;> simp
  have apart : Disjoint (set.candidates false) (set.candidates true) := by
    rw [Finset.disjoint_left]
    intro code accepted rejected
    have accepted := (mem_candidates.1 accepted).2
    have rejected := (mem_candidates.1 rejected).2
    unfold isCandidate at accepted rejected
    cases eq : set.accepts (Char.ofNat code) <;> simp [eq] at accepted rejected
  have all := card_covered h.size
  rw [split, Finset.card_union_of_disjoint apart, ← h.choices] at all
  rw [CharSet.excludable, ← all, Nat.add_sub_cancel_left]

/-- A choice counts its candidates. -/
theorem Counted.count (h : set.Counted) (invert : Bool) :
    (if invert then set.excludable else set.selectable) = (set.candidates invert).card := by
  cases invert with
  | false => exact h.choices
  | true => exact h.excludable

end CharSet

end PatternSampler
