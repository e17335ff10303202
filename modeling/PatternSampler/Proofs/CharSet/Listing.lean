/-
# What a set lists

Each operation on a set lists some characters and forgets none.  What a set lists, and with it what
it accepts, can therefore be told from the operations one at a time, in whatever order they came and
whether or not the table was widened on the way.

* `CharSet.lists` : whether a code point is listed; `lists_insert`, `lists_insertWhere` and
  `lists_insertItem` : what the operations list.
* `CharSet.lists_ofItems` and `CharSet.accepts_ofItems_iff` : what a set of items lists and accepts.
* `CharSet.isWide_ofItems_iff` : when its table reaches beyond ASCII.
* `CharSet.ofItems_eq_of_denotes` : it depends only on what its items stand for together.
-/
import PatternSampler.Proofs.CharSet.Counting

namespace PatternSampler

/-! ## Items -/

/-- An item whose characters can all be listed: no character is beyond the last one that can be, and
the ends of a range are in order. -/
def ClassItem.Fits : ClassItem → Prop
  | char c => c ≤ CharSet.lastChar
  | range first last => first ≤ last ∧ last ≤ CharSet.lastChar
  | shorthand _ => True

instance : DecidablePred ClassItem.Fits
  | .char c => inferInstanceAs (Decidable (c ≤ CharSet.lastChar))
  | .range first last => inferInstanceAs (Decidable (first ≤ last ∧ last ≤ CharSet.lastChar))
  | .shorthand _ => inferInstanceAs (Decidable True)

/-- Some item stands for a character. -/
def ClassItem.AnyDenotes (items : List ClassItem) (c : Char) : Prop :=
  ∃ item ∈ items, item.denotes c = true

/-- The classes themselves, as opposed to their complements, are within ASCII. -/
theorem Shorthand.lt_of_core {kind : Shorthand} {c : Char} (h : kind.core c = true) :
    c.toNat < CharSet.asciiSize := by
  have digit (h : c.isDigit = true) : c.toNat < CharSet.asciiSize := by
    simp only [Char.isDigit, Bool.and_eq_true, decide_eq_true_eq, ge_iff_le,
      UInt32.le_iff_toNat_le] at h
    exact lt_of_le_of_lt h.2 (by decide)
  have word (h : (c.isAlphanum || c == '_') = true) : c.toNat < CharSet.asciiSize := by
    simp only [Char.isAlphanum, Char.isAlpha, Char.isUpper, Char.isLower, Bool.or_eq_true,
      Bool.and_eq_true, decide_eq_true_eq, ge_iff_le, UInt32.le_iff_toNat_le] at h
    rcases h with ((upper | lower) | number) | underscore
    · exact lt_of_le_of_lt upper.2 (by decide)
    · exact lt_of_le_of_lt lower.2 (by decide)
    · exact digit number
    · rw [beq_iff_eq.1 underscore]
      decide
  have space (h : [' ', '\r', '\n', '\x0C', '\x0B', '\t'].contains c = true) :
      c.toNat < CharSet.asciiSize := by
    have small : [' ', '\r', '\n', '\x0C', '\x0B', '\t'].all (·.toNat < CharSet.asciiSize) = true := by
      decide
    exact of_decide_eq_true (List.all_eq_true.1 small c (List.contains_iff_mem.1 h))
  cases kind with
  | digit | nonDigit => exact digit h
  | word | nonWord => exact word h
  | space | nonSpace => exact space h

/-- Beyond ASCII all complements agree, and the classes themselves have nothing. -/
theorem Shorthand.accepts_of_le {kind : Shorthand} {c : Char}
    (beyond : CharSet.asciiSize ≤ c.toNat) : kind.accepts c = kind.negated := by
  have outside : kind.core c = false :=
    Bool.eq_false_iff.2 fun inside => not_lt.2 beyond (lt_of_core inside)
  rw [accepts, outside, Bool.false_bne]

namespace CharSet

variable {set : CharSet} {code other : ℕ} {c : Char}

theorem asciiSize_le_wideSize : asciiSize ≤ wideSize := by
  decide

/-- The characters that can be listed are those of the wide table. -/
theorem le_lastChar_iff : c ≤ lastChar ↔ c.toNat < wideSize := by
  rw [Char.le_def, UInt32.le_iff_toNat_le]
  exact Nat.lt_succ_iff.symm

/-- An item that fits stands only for characters that can be listed, unless it is a complement. -/
theorem le_lastChar_of_denotes {item : ClassItem} (fits : item.Fits)
    (plain : ∀ kind, item = .shorthand kind → kind.negated = false)
    (denotes : item.denotes c = true) : c ≤ lastChar := by
  cases item with
  | char d =>
    have eq : c = d := beq_iff_eq.1 denotes
    exact eq ▸ fits
  | range first last =>
    obtain ⟨-, small⟩ : first ≤ last ∧ last ≤ lastChar := fits
    have below : c ≤ last := of_decide_eq_true (Bool.and_eq_true_iff.1 denotes).2
    exact below.trans small
  | shorthand kind =>
    by_contra beyond
    rw [le_lastChar_iff, not_lt] at beyond
    have accepted : kind.accepts c = true := denotes
    rw [Shorthand.accepts_of_le (asciiSize_le_wideSize.trans beyond), plain kind rfl] at accepted
    cases accepted

/-! ## One operation -/

/-- Whether a code point is listed. -/
def lists (set : CharSet) (code : ℕ) : Bool :=
  set.listed.getD code false

/-- A set accepts what it lists, or what it does not list. -/
theorem accepts_eq (set : CharSet) (c : Char) : set.accepts c = (set.lists c.toNat == set.positive) :=
  rfl

theorem lists_eq_true_iff : set.lists code = true ↔ set.listed[code]? = some true := by
  rw [lists, Array.getD_eq_getD_getElem?]
  rcases set.listed[code]? with _ | _ | _ <;> simp

theorem lists_empty (positive : Bool) (code : ℕ) : (empty positive).lists code = false := by
  rw [← Bool.not_eq_true, lists_eq_true_iff]
  simp [empty, Array.getElem?_replicate]

/-- Widening lists nothing. -/
theorem lists_widen (set : CharSet) (code : ℕ) : set.widen.lists code = set.lists code := by
  unfold widen
  split
  · rfl
  · rw [Bool.eq_iff_iff, lists_eq_true_iff, lists_eq_true_iff, Array.getElem?_append]
    split
    · rfl
    · next beyond =>
      rw [Array.getElem?_eq_none (not_lt.1 beyond), Array.getElem?_replicate]
      split <;> simp

/-- No character is accepted or rejected by a set because its table was widened. -/
theorem accepts_widen (set : CharSet) (c : Char) : set.widen.accepts c = set.accepts c := by
  rw [accepts_eq, accepts_eq, lists_widen, positive_widen]

/-- One more code point is listed. -/
theorem lists_mark (covered : code < set.listed.size) :
    (set.mark code).lists other = true ↔ set.lists other = true ∨ other = code := by
  rw [lists_eq_true_iff, lists_eq_true_iff]
  by_cases same : code = other
  · subst same
    exact iff_of_true (getElem?_mark_self covered) (.inr rfl)
  · rw [or_iff_left (Ne.symm same)]
    unfold mark
    split
    · rw [Array.getElem?_setIfInBounds, if_neg same]
    · rfl

/-- Beyond the table nothing can be listed. -/
theorem mark_of_size_le (beyond : set.listed.size ≤ code) : set.mark code = set := by
  unfold mark
  rw [Array.getElem?_eq_none beyond]
  rfl

theorem Counted.size_widen (h : set.Counted) : set.widen.listed.size = wideSize := by
  rcases h.size with narrow | wide
  · exact CharSet.size_widen narrow
  · have isWide : set.isWide = true := beq_iff_eq.2 wide
    rw [CharSet.widen, if_pos isWide, wide]

theorem Counted.le_size (h : set.Counted) : asciiSize ≤ set.listed.size := by
  rcases h.size with narrow | wide
  · exact narrow.ge
  · exact wide ▸ asciiSize_le_wideSize

theorem Counted.size_le (h : set.Counted) : set.listed.size ≤ wideSize := by
  rcases h.size with narrow | wide
  · exact narrow ▸ asciiSize_le_wideSize
  · exact wide.le

/-- Inserting a character lists it, unless it is beyond the last one that can be listed. -/
theorem Counted.lists_insert (h : set.Counted) (c : Char) (code : ℕ) :
    (set.insert c).lists code = true ↔ set.lists code = true ∨ code = c.toNat ∧ c ≤ lastChar := by
  rw [le_lastChar_iff]
  unfold CharSet.insert
  split
  · next covered =>
    rw [lists_mark covered, and_iff_left (covered.trans_le h.size_le)]
  · by_cases small : c.toNat < wideSize
    · rw [lists_mark (h.size_widen.symm ▸ small), lists_widen, and_iff_left small]
    · rw [mark_of_size_le (h.size_widen.symm ▸ not_lt.1 small), lists_widen,
        or_iff_left fun both => small both.2]

/-! ## Several characters -/

/-- The code points from `start` on, `count` of them, that are characters, can be listed and are to
be kept. -/
def Kept (keep : Char → Bool) (count start code : ℕ) : Prop :=
  (start ≤ code ∧ code < start + count) ∧ code.isValidChar ∧ keep (Char.ofNat code) = true

/-- The first code point and those behind it. -/
theorem kept_succ {keep : Char → Bool} {count start code : ℕ} :
    Kept keep (count + 1) start code ↔
      (code = start ∧ start.isValidChar ∧ keep (Char.ofNat start) = true) ∨
        Kept keep count (start + 1) code := by
  unfold Kept
  constructor
  · rintro ⟨⟨low, high⟩, rest⟩
    by_cases first : code = start
    · subst first
      exact .inl ⟨rfl, rest⟩
    · exact .inr ⟨by omega, rest⟩
  · rintro (⟨rfl, rest⟩ | ⟨⟨low, high⟩, rest⟩)
    · exact ⟨by omega, rest⟩
    · exact ⟨by omega, rest⟩

/-- What is kept is listed as well, as far as the table reaches. -/
theorem Counted.lists_insertWhere (h : set.Counted) (keep : Char → Bool) (count start code : ℕ) :
    (CharSet.insertWhere keep count start set).lists code = true ↔
      set.lists code = true ∨ Kept keep count start code ∧ code < wideSize := by
  induction count generalizing start set with
  | zero =>
    rw [CharSet.insertWhere, or_iff_left]
    rintro ⟨⟨⟨low, high⟩, -⟩, -⟩
    omega
  | succ count ih =>
    rw [CharSet.insertWhere, kept_succ]
    split
    · next ok =>
      have here : code = start ∧ start < wideSize ↔ code = start ∧ code < wideSize :=
        and_congr_right fun eq => by rw [eq]
      rw [ih (h.insert _), h.lists_insert, le_lastChar_iff, toNat_ofNat ok.1, and_iff_left ok,
        or_and_right, or_assoc, here]
    · next no =>
      have none : ¬((code = start ∧ start.isValidChar ∧ keep (Char.ofNat start) = true) ∧
          code < wideSize) := fun both => no both.1.2
      rw [ih h, or_and_right, or_iff_right none]

/-- A range goes by the numbers of its characters. -/
theorem denotes_range {first last : Char} :
    (ClassItem.range first last).denotes c = true ↔ first.toNat ≤ c.toNat ∧ c.toNat ≤ last.toNat := by
  simp only [ClassItem.denotes, Bool.and_eq_true, decide_eq_true_eq, Char.le_def,
    UInt32.le_iff_toNat_le]
  exact Iff.rfl

/-- The code points of a range. -/
theorem kept_range {first last : Char} :
    Kept (fun _ => true) (last.toNat + 1 - first.toNat) first.toNat code ↔
      code.isValidChar ∧ (ClassItem.range first last).denotes (Char.ofNat code) = true := by
  unfold Kept
  constructor
  · rintro ⟨⟨low, high⟩, valid, -⟩
    refine ⟨valid, denotes_range.2 ?_⟩
    rw [toNat_ofNat valid]
    omega
  · rintro ⟨valid, between⟩
    have between := denotes_range.1 between
    rw [toNat_ofNat valid] at between
    exact ⟨by omega, valid, rfl⟩

/-- The code points of a table. -/
theorem kept_zero {keep : Char → Bool} {size : ℕ} : Kept keep size 0 code ↔
    code < size ∧ code.isValidChar ∧ keep (Char.ofNat code) = true := by
  rw [Kept, Nat.zero_add, and_iff_right (Nat.zero_le code)]

/-- **Inserting an item lists what it stands for**, as far as it can be listed. -/
theorem Counted.lists_insertItem (h : set.Counted) (item : ClassItem) (code : ℕ) :
    (set.insertItem item).lists code = true ↔ set.lists code = true ∨
      code.isValidChar ∧ item.denotes (Char.ofNat code) = true ∧ code < wideSize := by
  cases item with
  | char c =>
    rw [CharSet.insertItem, h.lists_insert, le_lastChar_iff]
    refine or_congr_right ⟨?_, ?_⟩
    · rintro ⟨rfl, small⟩
      exact ⟨c.valid, by simp [ClassItem.denotes], small⟩
    · rintro ⟨valid, eq, small⟩
      have eq : Char.ofNat code = c := by simpa [ClassItem.denotes] using eq
      rw [← eq, toNat_ofNat valid]
      exact ⟨rfl, small⟩
  | range first last =>
    rw [CharSet.insertItem, insertRange, h.lists_insertWhere, kept_range, and_assoc]
  | shorthand kind =>
    rw [CharSet.insertItem, insertShorthand]
    cases negated : kind.negated with
    | true =>
      rw [if_pos rfl, h.widen.lists_insertWhere, kept_zero, h.size_widen, lists_widen]
      refine or_congr_right ⟨?_, ?_⟩
      · rintro ⟨⟨small, valid, accepted⟩, -⟩
        exact ⟨valid, accepted, small⟩
      · rintro ⟨valid, accepted, small⟩
        exact ⟨⟨small, valid, accepted⟩, small⟩
    | false =>
      rw [if_neg Bool.false_ne_true, h.lists_insertWhere, kept_zero]
      refine or_congr_right ⟨?_, ?_⟩
      · rintro ⟨⟨-, valid, accepted⟩, small⟩
        exact ⟨valid, accepted, small⟩
      · rintro ⟨valid, accepted, small⟩
        -- even a narrow table covers the whole class
        have covered : (Char.ofNat code).toNat < asciiSize := by
          by_contra beyond
          have accepted : kind.accepts (Char.ofNat code) = true := accepted
          rw [Shorthand.accepts_of_le (not_lt.1 beyond), negated] at accepted
          cases accepted
        rw [toNat_ofNat valid] at covered
        exact ⟨⟨covered.trans_le h.le_size, valid, accepted⟩, small⟩

theorem positive_insert (set : CharSet) (c : Char) : (set.insert c).positive = set.positive := by
  unfold CharSet.insert
  rw [positive_mark]
  split
  · rfl
  · exact positive_widen set

theorem positive_insertWhere (keep : Char → Bool) (count start : ℕ) (set : CharSet) :
    (insertWhere keep count start set).positive = set.positive := by
  induction count generalizing start set with
  | zero => rfl
  | succ count ih =>
    rw [insertWhere, ih]
    split
    · exact positive_insert set _
    · rfl

theorem positive_insertItem (set : CharSet) (item : ClassItem) :
    (set.insertItem item).positive = set.positive := by
  cases item with
  | char c => exact positive_insert set c
  | range first last => exact positive_insertWhere _ _ _ set
  | shorthand kind =>
    refine (positive_insertWhere _ _ _ _).trans ?_
    split
    · exact positive_widen set
    · rfl

/-! ## Sets of items -/

/-- What items list in addition to what a set lists already. -/
theorem Counted.lists_foldl (h : set.Counted) (items : List ClassItem) (code : ℕ) :
    (items.foldl CharSet.insertItem set).lists code = true ↔ set.lists code = true ∨
      code.isValidChar ∧ ClassItem.AnyDenotes items (Char.ofNat code) ∧ code < wideSize := by
  induction items generalizing set with
  | nil => simp [ClassItem.AnyDenotes]
  | cons item items ih =>
    rw [List.foldl_cons, ih (h.insertItem item), h.lists_insertItem, or_assoc]
    simp only [ClassItem.AnyDenotes, List.exists_mem_cons_iff, or_and_right, and_or_left]

theorem positive_foldl (items : List ClassItem) (set : CharSet) :
    (items.foldl insertItem set).positive = set.positive := by
  induction items generalizing set with
  | nil => rfl
  | cons item items ih => rw [List.foldl_cons, ih, positive_insertItem]

@[simp]
theorem positive_ofItems (positive : Bool) (items : List ClassItem) :
    (ofItems positive items).positive = positive :=
  positive_foldl items (empty positive)

/-- **A set of items lists what its items stand for**, as far as it can be listed. -/
theorem lists_ofItems (positive : Bool) (items : List ClassItem) (code : ℕ) :
    (ofItems positive items).lists code = true ↔
      code.isValidChar ∧ ClassItem.AnyDenotes items (Char.ofNat code) ∧ code < wideSize := by
  rw [ofItems, (counted_empty positive).lists_foldl, lists_empty,
    or_iff_right Bool.false_ne_true]

/-- **What a set of items accepts.**  A positive set accepts what some item stands for and a
negative set what none does, but no item reaches beyond the last character that can be listed. -/
theorem accepts_ofItems_iff (positive : Bool) (items : List ClassItem) (c : Char) :
    (ofItems positive items).accepts c = true ↔
      (ClassItem.AnyDenotes items c ∧ c ≤ lastChar ↔ positive = true) := by
  have listed : (ofItems positive items).lists c.toNat = true ↔
      ClassItem.AnyDenotes items c ∧ c ≤ lastChar := by
    rw [lists_ofItems, Char.ofNat_toNat, ← le_lastChar_iff]
    exact and_iff_right c.valid
  rw [accepts_eq, positive_ofItems, beq_iff_eq, ← listed, Bool.eq_iff_iff]

/-! ### Sets that stand alone -/

/-- A shorthand class that stands alone lists the class itself, also where it is a complement. -/
theorem lists_ofShorthand (kind : Shorthand) (code : ℕ) :
    (ofShorthand kind).lists code = true ↔
      code.isValidChar ∧ kind.core (Char.ofNat code) = true := by
  rw [ofShorthand, (counted_empty _).lists_insertWhere, lists_empty,
    or_iff_right Bool.false_ne_true, kept_zero]
  constructor
  · rintro ⟨⟨-, inside⟩, -⟩
    exact inside
  · rintro ⟨valid, core⟩
    have small := Shorthand.lt_of_core core
    rw [toNat_ofNat valid] at small
    exact ⟨⟨small, valid, core⟩, small.trans_le asciiSize_le_wideSize⟩

/-- A shorthand class that stands alone accepts its characters, also those that cannot be listed. -/
theorem accepts_ofShorthand (kind : Shorthand) (c : Char) :
    (ofShorthand kind).accepts c = kind.accepts c := by
  have positive : (ofShorthand kind).positive = !kind.negated :=
    positive_insertWhere _ _ _ _
  have listed : (ofShorthand kind).lists c.toNat = kind.core c := by
    rw [Bool.eq_iff_iff, lists_ofShorthand, Char.ofNat_toNat]
    exact and_iff_right c.valid
  rw [accepts_eq, positive, listed, Shorthand.accepts]
  cases kind.core c <;> cases kind.negated <;> rfl

/-- The set of all characters but one lists this one, unless it cannot be listed. -/
theorem lists_allBut (c : Char) (code : ℕ) :
    (allBut c).lists code = true ↔ code = c.toNat ∧ c ≤ lastChar := by
  unfold allBut
  split
  · rw [(counted_empty false).lists_insert, lists_empty, or_iff_right Bool.false_ne_true]
  · next large =>
    rw [lists_widen, lists_empty]
    exact iff_of_false Bool.false_ne_true fun both => large both.2

/-! ### Wide tables -/

theorem Counted.isWide_widen (h : set.Counted) : set.widen.isWide = true :=
  beq_iff_eq.2 h.size_widen

theorem isWide_mark (set : CharSet) (code : ℕ) : (set.mark code).isWide = set.isWide := by
  unfold mark
  split
  · rw [isWide, Array.size_setIfInBounds, isWide]
  · rfl

/-- A set gets wide by a character beyond ASCII. -/
theorem Counted.isWide_insert (h : set.Counted) (c : Char) :
    (set.insert c).isWide = true ↔ set.isWide = true ∨ asciiSize ≤ c.toNat := by
  unfold CharSet.insert
  rw [isWide_mark]
  by_cases covered : c.toNat < set.listed.size
  · rw [if_pos covered, or_iff_left_of_imp]
    intro beyond
    rcases h.size with narrow | wide
    · omega
    · exact beq_iff_eq.2 wide
  · rw [if_neg covered]
    exact iff_of_true h.isWide_widen (.inr (h.le_size.trans (not_lt.1 covered)))

/-- A set gets wide by some character beyond ASCII. -/
theorem Counted.isWide_insertWhere (h : set.Counted) (keep : Char → Bool) (count start : ℕ) :
    (CharSet.insertWhere keep count start set).isWide = true ↔
      set.isWide = true ∨ ∃ code, Kept keep count start code ∧ asciiSize ≤ code := by
  induction count generalizing start set with
  | zero =>
    rw [CharSet.insertWhere, or_iff_left]
    rintro ⟨code, ⟨⟨low, high⟩, -⟩, -⟩
    omega
  | succ count ih =>
    have first : (∃ code, Kept keep (count + 1) start code ∧ asciiSize ≤ code) ↔
        ((start.isValidChar ∧ keep (Char.ofNat start) = true) ∧ asciiSize ≤ start) ∨
          ∃ code, Kept keep count (start + 1) code ∧ asciiSize ≤ code := by
      simp only [kept_succ, or_and_right, exists_or, and_assoc, exists_eq_left]
    rw [CharSet.insertWhere, first]
    split
    · next ok => rw [ih (h.insert _), h.isWide_insert, toNat_ofNat ok.1, or_assoc, and_iff_right ok]
    · next no =>
      have none : ¬((start.isValidChar ∧ keep (Char.ofNat start) = true) ∧ asciiSize ≤ start) :=
        fun both => no both.1
      rw [ih h, or_iff_right none]

/-- Inserting an item widens the table if the item stands for a character beyond ASCII. -/
theorem Counted.isWide_insertItem (h : set.Counted) {item : ClassItem} (fits : item.Fits) :
    (set.insertItem item).isWide = true ↔ set.isWide = true ∨
      ∃ c : Char, item.denotes c = true ∧ asciiSize ≤ c.toNat ∧ c ≤ lastChar := by
  cases item with
  | char c =>
    have fits : c ≤ lastChar := fits
    rw [CharSet.insertItem, h.isWide_insert]
    simp [ClassItem.denotes, fits]
  | range first last =>
    obtain ⟨-, small⟩ : first ≤ last ∧ last ≤ lastChar := fits
    rw [CharSet.insertItem, insertRange, h.isWide_insertWhere]
    refine or_congr_right ⟨?_, ?_⟩
    · rintro ⟨code, kept, beyond⟩
      obtain ⟨valid, between⟩ := kept_range.1 kept
      have below : Char.ofNat code ≤ last :=
        of_decide_eq_true (Bool.and_eq_true_iff.1 between).2
      exact ⟨Char.ofNat code, between, by rwa [toNat_ofNat valid], below.trans small⟩
    · rintro ⟨c, between, beyond, -⟩
      exact ⟨c.toNat, kept_range.2 ⟨c.valid, by rwa [Char.ofNat_toNat]⟩, beyond⟩
  | shorthand kind =>
    rw [CharSet.insertItem, insertShorthand]
    cases negated : kind.negated with
    | true =>
      have next : asciiSize ≤ '\u0080'.toNat := by decide
      rw [if_pos rfl, h.widen.isWide_insertWhere]
      exact iff_of_true (.inl h.isWide_widen)
        (.inr ⟨_, (Shorthand.accepts_of_le next).trans negated, next, by decide⟩)
    | false =>
      rw [if_neg Bool.false_ne_true, h.isWide_insertWhere]
      refine or_congr_right (iff_of_false ?_ ?_)
      · rintro ⟨code, kept, beyond⟩
        obtain ⟨-, valid, accepted⟩ := kept_zero.1 kept
        rw [Shorthand.accepts_of_le (by rwa [toNat_ofNat valid]), negated] at accepted
        cases accepted
      · rintro ⟨c, accepted, beyond, -⟩
        have accepted : kind.accepts c = true := accepted
        rw [Shorthand.accepts_of_le beyond, negated] at accepted
        cases accepted

/-- A set gets wide by an item that stands for some character beyond ASCII. -/
theorem Counted.isWide_foldl (h : set.Counted) {items : List ClassItem}
    (fits : ∀ item ∈ items, item.Fits) :
    (items.foldl CharSet.insertItem set).isWide = true ↔ set.isWide = true ∨
      ∃ c : Char, ClassItem.AnyDenotes items c ∧ asciiSize ≤ c.toNat ∧ c ≤ lastChar := by
  induction items generalizing set with
  | nil => simp [ClassItem.AnyDenotes]
  | cons item items ih =>
    obtain ⟨first, others⟩ := List.forall_mem_cons.1 fits
    rw [List.foldl_cons, ih (h.insertItem item) others, h.isWide_insertItem first, or_assoc]
    simp only [ClassItem.AnyDenotes, List.exists_mem_cons_iff, or_and_right, exists_or]

/-- **The table of a set of items is wide** if some item stands for a character beyond ASCII. -/
theorem isWide_ofItems_iff (positive : Bool) {items : List ClassItem}
    (fits : ∀ item ∈ items, item.Fits) :
    (ofItems positive items).isWide = true ↔
      ∃ c : Char, ClassItem.AnyDenotes items c ∧ asciiSize ≤ c.toNat ∧ c ≤ lastChar := by
  have narrow : (empty positive).listed.size = asciiSize := Array.size_replicate
  rw [ofItems, (counted_empty positive).isWide_foldl fits, or_iff_right (not_isWide narrow)]

/-! ### Equal sets -/

/-- There are two sizes of tables. -/
theorem Counted.size_eq (h : set.Counted) :
    set.listed.size = if set.isWide then wideSize else asciiSize := by
  rcases h.size with narrow | wide
  · rw [if_neg (not_isWide narrow), narrow]
  · have isWide : set.isWide = true := beq_iff_eq.2 wide
    rw [if_pos isWide, wide]

/-- A set is determined by what it lists, its sign and the size of its table. -/
theorem Counted.ext {set' : CharSet} (h : set.Counted) (h' : set'.Counted)
    (positive : set.positive = set'.positive) (wide : set.isWide = set'.isWide)
    (lists : ∀ code, set.lists code = set'.lists code) : set = set' := by
  have listed : set.listed = set'.listed := by
    apply Array.ext
    · rw [h.size_eq, h'.size_eq, wide]
    · intro code lt lt'
      have same := lists code
      unfold CharSet.lists at same
      rwa [Array.getD_eq_getD_getElem?, Array.getD_eq_getD_getElem?, Array.getElem?_eq_getElem lt,
        Array.getElem?_eq_getElem lt'] at same
  -- the account is the number of accepted characters, which depends on nothing else
  have counted := h.choices
  have counted' := h'.choices
  obtain ⟨sign, table, account⟩ := set
  obtain ⟨sign', table', account'⟩ := set'
  obtain rfl : sign = sign' := positive
  obtain rfl : table = table' := listed
  obtain rfl : account = account' := counted.trans counted'.symm
  rfl

/-- **Order and repetition of items do not matter**: a set depends only on its sign and on what its
items stand for together. -/
theorem ofItems_eq_of_denotes (positive : Bool) {items items' : List ClassItem}
    (fits : ∀ item ∈ items, item.Fits) (fits' : ∀ item ∈ items', item.Fits)
    (same : ∀ c ≤ lastChar, ClassItem.AnyDenotes items c ↔ ClassItem.AnyDenotes items' c) :
    ofItems positive items = ofItems positive items' := by
  refine (counted_ofItems positive items).ext (counted_ofItems positive items') ?_ ?_ fun code => ?_
  · rw [positive_ofItems, positive_ofItems]
  · rw [Bool.eq_iff_iff, isWide_ofItems_iff positive fits, isWide_ofItems_iff positive fits']
    refine exists_congr fun c => ⟨?_, ?_⟩
    · rintro ⟨denotes, beyond, small⟩
      exact ⟨(same c small).1 denotes, beyond, small⟩
    · rintro ⟨denotes, beyond, small⟩
      exact ⟨(same c small).2 denotes, beyond, small⟩
  · rw [Bool.eq_iff_iff, lists_ofItems, lists_ofItems]
    refine and_congr_right fun valid => and_congr_left fun small => same _ ?_
    rwa [le_lastChar_iff, toNat_ofNat valid]

end CharSet

end PatternSampler
