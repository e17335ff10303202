/-
# Items as texts

A character of a set can be written by its number, or as it is with a backslash before punctuation.
Written in this way nothing has a meaning of its own: no item closes the set, makes it a negative
one, begins a macro or runs into the item behind it.  So a list of items is read back as it is.

* `WritesChar`, `WritesItem` : how characters and items are written.
* `ReadsItems` : the items that the text of a whole set is read as.
* `readAtom_of_readsItems` : the set that such a text stands for.
* `readsItems_of_writes` : what is written is read back.
-/
import PatternSampler.Proofs.CharSet.Listing
import PatternSampler.Proofs.Reading.Bracket

namespace PatternSampler.Reading

variable {cs rest text : List Char} {c : Char} {item : ClassItem}

/-! ## Writing -/

/-- The ways to write a character of a set. -/
inductive WritesChar : Char → List Char → Prop
  /-- By its number, of four hexadecimal digits. -/
  | number {c : Char} {digits : List Char} : digits.length = 4 →
      (∀ d ∈ digits, isHexDigit d = true) → numberOf 16 digits = c.toNat →
      WritesChar c ('\\' :: 'u' :: digits)
  /-- With a backslash, if it is punctuation. -/
  | escaped {c : Char} : isPunctuation c = true → WritesChar c ['\\', c]
  /-- As it is, otherwise. -/
  | plain {c : Char} : isPunctuation c = false → WritesChar c [c]

/-- The ways to write an item. -/
inductive WritesItem : ClassItem → List Char → Prop
  | char {c : Char} {text : List Char} : WritesChar c text → WritesItem (.char c) text
  | range {first last : Char} {text text' : List Char} : WritesChar first text →
      WritesChar last text' → WritesItem (.range first last) (text ++ '-' :: text')
  | shorthand {letter : Char} {kind : Shorthand} : Shorthand.ofLetter? letter = some kind →
      WritesItem (.shorthand kind) ['\\', letter]

/-- A text begins with a backslash or with a character that is no punctuation, so with none that has
a meaning of its own in a set. -/
def BeginsPlainly (cs : List Char) : Prop :=
  ∃ c tail, cs = c :: tail ∧ (c = '\\' ∨ isPunctuation c = false)

theorem WritesChar.beginsPlainly (writes : WritesChar c text) : BeginsPlainly text := by
  cases writes with
  | number => exact ⟨_, _, rfl, .inl rfl⟩
  | escaped => exact ⟨_, _, rfl, .inl rfl⟩
  | plain plain => exact ⟨_, _, rfl, .inr plain⟩

theorem BeginsPlainly.append (h : BeginsPlainly cs) (rest : List Char) :
    BeginsPlainly (cs ++ rest) := by
  obtain ⟨c, tail, rfl, plain⟩ := h
  exact ⟨c, tail ++ rest, rfl, plain⟩

/-- No way of writing an item begins like what does not belong to items. -/
theorem WritesItem.beginsPlainly (writes : WritesItem item text) : BeginsPlainly text := by
  cases writes with
  | char writes => exact writes.beginsPlainly
  | range writes => exact writes.beginsPlainly.append _
  | shorthand => exact ⟨_, _, rfl, .inl rfl⟩

/-- No punctuation but a backslash stands in front of an item. -/
theorem BeginsPlainly.head?_ne (h : BeginsPlainly cs) (special : isPunctuation c = true)
    (other : c ≠ '\\') : cs.head? ≠ some c := by
  obtain ⟨d, tail, rfl, plain⟩ := h
  rintro ⟨⟩
  rcases plain with backslash | plain
  · exact other backslash
  · exact Bool.false_ne_true (plain.symm.trans special)

/-! ## Reading characters -/

/-- Hexadecimal digits are read up to the number that they spell. -/
theorem readHexFrom_append (wanted : ℕ) {digits : List Char}
    (hex : ∀ d ∈ digits, isHexDigit d = true) (value : ℕ) (rest : List Char) :
    readHexFrom wanted digits.length value (digits ++ rest) =
      .ok (digits.foldl (fun n d => n * 16 + digitValue d) value, rest) := by
  induction digits generalizing value with
  | nil => rfl
  | cons d digits ih =>
    obtain ⟨first, others⟩ := List.forall_mem_cons.1 hex
    rw [List.length_cons, List.cons_append, readHexFrom, if_pos first, ih others, List.foldl_cons]

/-- Four hexadecimal digits stand for their character. -/
theorem readMemberEscape_number {digits : List Char} (four : digits.length = 4)
    (hex : ∀ d ∈ digits, isHexDigit d = true) (value : numberOf 16 digits = c.toNat) :
    readMemberEscape ('u' :: (digits ++ rest)) = .ok (.char c, rest) := by
  have number : readCodeNumber ('u' :: (digits ++ rest)) = .ok (c.toNat, rest) := by
    rw [readCodeNumber, readHex, ← four, readHexFrom_append digits.length hex, ← value, numberOf]
  have code : readCodePoint ('u' :: (digits ++ rest)) = .ok (c, rest) := by
    have valid : c.toNat.isValidChar := c.valid
    refine bind_eq_ok.2 ⟨_, number, ?_⟩
    dsimp only
    rw [if_pos valid, Char.ofNat_toNat]
  rw [readMemberEscape, if_pos (.inr (.inl rfl))]
  exact bind_eq_ok.2 ⟨_, code, rfl⟩

/-- Punctuation behind a backslash stands for itself. -/
theorem readMemberEscape_of_isPunctuation (special : isPunctuation c = true) :
    readMemberEscape (c :: rest) = .ok (.char c, rest) := by
  have noCode : ¬(c = 'x' ∨ c = 'u' ∨ c.isDigit = true) := by
    rintro (eq | eq | digit)
    · exact ne_of_isPunctuation special rfl eq
    · exact ne_of_isPunctuation special rfl eq
    · exact not_isDigit_of_isPunctuation special digit
  have noBackspace : ¬c = 'b' := ne_of_isPunctuation special rfl
  rw [readMemberEscape, if_neg noCode, ofLetter?_of_isPunctuation special]
  dsimp only
  rw [if_neg noBackspace, escapedChar?_of_isPunctuation special]

/-- A letter of a class behind a backslash stands for the class. -/
theorem readMemberEscape_of_ofLetter? {letter : Char} {kind : Shorthand}
    (named : Shorthand.ofLetter? letter = some kind) :
    readMemberEscape (letter :: rest) = .ok (.shorthand kind, rest) := by
  have noCode : ¬(letter = 'x' ∨ letter = 'u' ∨ letter.isDigit = true) := by
    rintro (rfl | rfl | digit)
    · cases named
    · cases named
    · cases (ofLetter?_of_isDigit digit).symm.trans named
  rw [readMemberEscape, if_neg noCode, named]

/-- A character that can be listed is read back, whatever follows. -/
theorem readMember_of_writes (writes : WritesChar c text) (small : c ≤ CharSet.lastChar)
    (rest : List Char) : readMember (text ++ rest) = .ok (.char c, rest) := by
  have any : readAnyMember (text ++ rest) = .ok (.char c, rest) := by
    cases writes with
    | number four hex value => exact readMemberEscape_number four hex value
    | escaped special => exact readMemberEscape_of_isPunctuation special
    | plain plain =>
      refine readAnyMember_of_ne ?_ ?_ rest
      · exact (ne_of_isPunctuation rfl plain).symm
      · exact (ne_of_isPunctuation rfl plain).symm
  exact bind_eq_ok.2 ⟨_, any, if_neg (not_lt.2 small)⟩

/-! ## Reading items -/

/-- An item is read back, unless a hyphen follows that would make a range of it. -/
theorem readItem_of_writes (writes : WritesItem item text) (fits : item.Fits)
    (hyphen : rest.head? ≠ some '-') : readItem (text ++ rest) = .ok (item, rest) := by
  cases writes with
  | char writes =>
    have single : rangeEnd? rest = none := by
      by_contra some
      obtain ⟨behind, range⟩ := Option.ne_none_iff_exists'.1 some
      obtain ⟨rfl, -⟩ := rangeEnd?_eq_some_iff.1 range
      exact hyphen rfl
    refine bind_eq_ok.2 ⟨_, readMember_of_writes writes fits rest, ?_⟩
    dsimp only
    rw [single]
  | @range first last text text' writes writes' =>
    obtain ⟨inOrder, small⟩ : first ≤ last ∧ last ≤ CharSet.lastChar := fits
    have begins := writes'.beginsPlainly.append rest
    have range : rangeEnd? ('-' :: (text' ++ rest)) = some (text' ++ rest) := by
      refine rangeEnd?_eq_some_iff.2 ⟨rfl, ?_, begins.head?_ne rfl (by decide)⟩
      obtain ⟨d, tail, eq, -⟩ := begins
      exact eq ▸ List.cons_ne_nil d tail
    rw [List.append_assoc, List.cons_append]
    refine bind_eq_ok.2 ⟨_, readMember_of_writes writes (inOrder.trans small) _, ?_⟩
    dsimp only
    rw [range]
    refine bind_eq_ok.2 ⟨_, readMember_of_writes writes' small rest, ?_⟩
    exact if_neg (not_lt.2 inOrder)
  | shorthand named =>
    have any : readAnyMember (['\\', _] ++ rest) = .ok (.shorthand _, rest) :=
      readMemberEscape_of_ofLetter? named
    exact bind_eq_ok.2 ⟨_, bind_eq_ok.2 ⟨_, any, rfl⟩, rfl⟩

/-- What is written one item after the other begins with nothing that has a meaning of its own, or
it is nothing at all. -/
theorem beginsPlainly_flatten {items : List ClassItem} {texts : List (List Char)}
    (writes : List.Forall₂ WritesItem items texts) (nonempty : items ≠ []) :
    BeginsPlainly texts.flatten := by
  cases writes with
  | nil => exact absurd rfl nonempty
  | cons first _ => exact first.beginsPlainly.append _

/-- **Items are read back one after the other**, up to the closing bracket. -/
theorem readItems_of_writes (unclosed : Fault) {items : List ClassItem} {texts : List (List Char)}
    (writes : List.Forall₂ WritesItem items texts) (fits : ∀ item ∈ items, item.Fits)
    (rest : List Char) :
    readItems unclosed (texts.flatten ++ ']' :: rest) = .ok (items, rest) := by
  induction writes with
  | nil => rw [List.flatten_nil, List.nil_append, readItems]
  | @cons item text items texts first others ih =>
    obtain ⟨fit, fits⟩ := List.forall_mem_cons.1 fits
    have hyphen : (texts.flatten ++ ']' :: rest).head? ≠ some '-' := by
      cases others with
      | nil => simp
      | cons next =>
        exact ((next.beginsPlainly.append _).append _).head?_ne rfl (by decide)
    have read := readItem_of_writes first fit hyphen
    obtain ⟨c, tail, begins, plain⟩ := first.beginsPlainly.append (texts.flatten ++ ']' :: rest)
    have closing : c ≠ ']' := by
      rintro rfl
      rcases plain with eq | eq <;> cases eq
    rw [List.flatten_cons, List.append_assoc, begins, readItems_cons closing (begins ▸ read),
      ih fits]
    rfl

/-! ## Whole sets -/

/-- The text behind an opening bracket is read to its end as the items of a positive or a negative
set, and not as the name of a macro. -/
structure ReadsItems (positive : Bool) (items : List ClassItem) (cs : List Char) : Prop where
  noMacro : cs.head? ≠ some ':'
  sign : (cs.head? != some '^') = positive
  reads : ∃ unclosed others, readItems unclosed (leadingItem (behindCaret cs)).2 = .ok (others, []) ∧
    items = (leadingItem (behindCaret cs)).1 ++ others

/-! ### What is read fits -/

/-- A character that is read is one that a set can hold. -/
theorem le_lastChar_of_readMember (h : readMember cs = .ok (.char c, rest)) :
    c ≤ CharSet.lastChar := by
  obtain ⟨⟨any, left⟩, -, h⟩ := bind_eq_ok.1 h
  dsimp only at h
  split at h
  · split at h
    · cases h
    · next small =>
      cases h
      exact not_lt.1 small
  · cases h

/-- An item that is read is one that a set can hold. -/
theorem fits_of_readItem (h : readItem cs = .ok (item, rest)) : item.Fits := by
  obtain ⟨⟨first, left⟩, read, h⟩ := bind_eq_ok.1 h
  dsimp only at h
  split at h
  · cases h
    trivial
  split at h
  · cases h
    exact le_lastChar_of_readMember read
  · obtain ⟨⟨last, left⟩, read', h⟩ := bind_eq_ok.1 h
    dsimp only at h
    split at h
    · cases h
    split at h
    · cases h
    · next inOrder =>
      cases h
      exact ⟨not_lt.1 inOrder, le_lastChar_of_readMember read'⟩

/-- All items that are read are ones that a set can hold. -/
theorem fits_of_readItems {unclosed : Fault} {items : List ClassItem}
    (h : readItems unclosed cs = .ok (items, rest)) : ∀ item ∈ items, item.Fits := by
  fun_induction readItems unclosed cs generalizing items with
  | case1 => cases h
  | case2 =>
    cases h
    exact List.forall_mem_nil _
  | case3 => cases h
  | case4 c tail _ item left read ih =>
    obtain ⟨⟨more, stop⟩, others, h⟩ := bind_eq_ok.1 h
    cases h
    exact List.forall_mem_cons.2 ⟨fits_of_readItem read, ih others⟩

/-- Items that are read fit. -/
theorem ReadsItems.fits {positive : Bool} {items : List ClassItem}
    (h : ReadsItems positive items cs) : ∀ item ∈ items, item.Fits := by
  obtain ⟨-, -, unclosed, others, reads, rfl⟩ := h
  have leading : ∀ item ∈ (leadingItem (behindCaret cs)).1, item.Fits := by
    unfold leadingItem
    split
    · exact List.forall_mem_singleton.2 (by decide)
    · exact List.forall_mem_singleton.2 (by decide)
    · exact List.forall_mem_nil _
  exact List.forall_mem_append.2 ⟨leading, fits_of_readItems reads⟩

/-! ### The set of a text -/

/-- **A text that is read as items stands for the set that is built from them.** -/
theorem readAtom_of_readsItems {positive : Bool} {items : List ClassItem}
    (h : ReadsItems positive items cs) :
    readAtom ('[' :: cs) = .ok (.set (.ofItems positive items), []) := by
  obtain ⟨noMacro, sign, unclosed, others, reads, rfl⟩ := h
  -- the fault of a set that is not closed does not count for one that is
  obtain ⟨inside, -, split, reads'⟩ := readItems_append reads
  have bracket : readBracket (fault ('[' :: cs) .classUnterminated) cs =
      .ok (.ofItems positive ((leadingItem (behindCaret cs)).1 ++ others), []) := by
    rw [readBracket_eq_ok_iff]
    refine ⟨others, ?_, by rw [sign]⟩
    rw [split]
    exact reads' _ []
  rw [readAtom.eq_3 cs fun rest eq => noMacro (by rw [eq]; rfl)]
  exact bind_eq_ok.2 ⟨_, bracket, rfl⟩

/-- The text of a set behind its opening bracket. -/
def bracketText (positive : Bool) (inside : List Char) : List Char :=
  if positive then inside ++ [']'] else '^' :: (inside ++ [']'])

/-- Only a bracket that closes at once is an item in front of the others. -/
theorem BeginsPlainly.leadingItem (h : BeginsPlainly cs) : leadingItem cs = ([], cs) := by
  have closing : cs.head? ≠ some ']' := h.head?_ne rfl (by decide)
  have hyphen : cs.head? ≠ some '-' := h.head?_ne rfl (by decide)
  unfold Reading.leadingItem
  split
  · exact absurd rfl closing
  · exact absurd rfl hyphen
  · rfl

/-- **What is written is read back.** -/
theorem readsItems_of_writes (positive : Bool) {items : List ClassItem} {texts : List (List Char)}
    (nonempty : items ≠ []) (writes : List.Forall₂ WritesItem items texts)
    (fits : ∀ item ∈ items, item.Fits) :
    ReadsItems positive items (bracketText positive texts.flatten) := by
  have begins := (beginsPlainly_flatten writes nonempty).append [']']
  have reads : ∃ unclosed others,
      readItems unclosed (leadingItem (texts.flatten ++ [']'])).2 = .ok (others, []) ∧
        items = (leadingItem (texts.flatten ++ [']'])).1 ++ others := by
    rw [begins.leadingItem]
    exact ⟨fault [] .classUnterminated, items, readItems_of_writes _ writes fits [], rfl⟩
  cases positive with
  | false => exact ⟨by simp [bracketText], rfl, reads⟩
  | true =>
    have noCaret : ((texts.flatten ++ [']']).head? != some '^') = true :=
      bne_iff_ne.2 (begins.head?_ne rfl (by decide))
    refine ⟨begins.head?_ne rfl (by decide), noCaret, ?_⟩
    have whole : behindCaret (bracketText true texts.flatten) = texts.flatten ++ [']'] :=
      if_pos noCaret
    rw [whole]
    exact reads

end PatternSampler.Reading
