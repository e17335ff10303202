/-
# Sets in brackets as texts

A set is read up to the bracket that closes it, whatever follows.  Which bracket that is can be told
from the text alone: the first one that is neither behind a backslash nor the first item.

* `Enclosed` : a text that does not close a set.
* `IsSet` : what stands behind an opening bracket, up to the closing one.
* `readBracket_append` : what is read behind an opening bracket.
-/
import PatternSampler.Proofs.Reading.Extent

namespace PatternSampler.Reading

variable {cs rest used : List Char}

/-- A text inside of a set: a closing bracket stands only behind a backslash. -/
inductive Enclosed : List Char → Prop
  | nil : Enclosed []
  | char {c : Char} {cs : List Char} : c ≠ '\\' → c ≠ ']' → Enclosed cs → Enclosed (c :: cs)
  | escape {c : Char} {cs : List Char} : Enclosed cs → Enclosed ('\\' :: c :: cs)

theorem Enclosed.append {cs cs' : List Char} (first : Enclosed cs) (second : Enclosed cs') :
    Enclosed (cs ++ cs') := by
  induction first with
  | nil => exact second
  | char backslash closing _ ih => exact .char backslash closing ih
  | escape _ ih => exact .escape ih

theorem Plain.enclosed (plain : Plain cs) : Enclosed cs := by
  induction cs with
  | nil => exact .nil
  | cons c cs ih =>
    obtain ⟨⟨backslash, -, closing⟩, plain⟩ := List.forall_mem_cons.1 plain
    exact .char backslash closing (ih plain)

/-- An enclosed text does not begin with a closing bracket. -/
theorem Enclosed.head?_ne (enclosed : Enclosed cs) : cs.head? ≠ some ']' := by
  cases enclosed with
  | nil => simp
  | char _ closing _ => simpa using closing
  | escape => simp

/-! ## Members -/

/-- An escape in a set depends on what it takes and, if it is a number, on that no digit follows. -/
theorem readMemberEscape_cons_readsOff {c : Char} {member : Member}
    (h : readMemberEscape (c :: cs) = .ok (member, rest)) :
    ∃ used, Plain used ∧
      ReadsOff (c.isDigit = true) (fun cs => readMemberEscape (c :: cs)) cs used member rest := by
  have unfolded (cs : List Char) : readMemberEscape (c :: cs) = _ := readMemberEscape.eq_2 c cs
  by_cases start : c = 'x' ∨ c = 'u' ∨ c.isDigit = true
  · simp only [if_pos start] at unfolded
    rw [unfolded] at h
    obtain ⟨⟨value, left⟩, read, same⟩ := bind_eq_ok.1 h
    cases same
    obtain ⟨used, plain, -, split, reads⟩ := readCodePoint_readsOff start read
    refine ⟨used, plain, split, fun rest' follows => ?_⟩
    exact (unfolded _).trans (bind_eq_ok.2 ⟨_, reads rest' follows, rfl⟩)
  · simp only [if_neg start] at unfolded
    suffices cs = rest ∧ ∀ cs', readMemberEscape (c :: cs') = .ok (member, cs') from
      ⟨[], .nil, this.1, fun cs' _ => this.2 cs'⟩
    simp only [unfolded] at h ⊢
    split at h
    · cases h
      exact ⟨rfl, fun _ => rfl⟩
    split at h
    · cases h
      exact ⟨rfl, fun _ => rfl⟩
    · cases h

/-- A reader takes the front of the inside of a set, as long as what follows begins in the same
way. -/
def TakesMember {α : Type} (f : List Char → Except Fault (α × List Char)) (cs : List Char) (a : α)
    (rest : List Char) : Prop :=
  ∃ used, cs = used ++ rest ∧ (cs.head? ≠ some ']' → Enclosed used) ∧
    ∀ rest', rest'.head? = rest.head? → f (used ++ rest') = .ok (a, rest')

/-- Any other character stands for itself. -/
theorem readAnyMember_of_ne {c : Char} (hyphen : c ≠ '-') (backslash : c ≠ '\\') (cs : List Char) :
    readAnyMember (c :: cs) = .ok (.char c, cs) :=
  readAnyMember.eq_4 c cs hyphen backslash

theorem takesMember_readAnyMember {member : Member}
    (h : readAnyMember cs = .ok (member, rest)) : TakesMember readAnyMember cs member rest := by
  cases cs with
  | nil => cases h
  | cons c cs =>
    by_cases hyphen : c = '-'
    · subst hyphen
      rw [readAnyMember] at h
      split at h
      · next closing =>
        cases h
        refine ⟨['-'], rfl, fun _ => .char (by decide) (by decide) .nil, fun rest' same => ?_⟩
        rw [List.singleton_append, readAnyMember, if_pos (same.trans closing)]
      · cases h
    by_cases backslash : c = '\\'
    · subst backslash
      rw [readAnyMember] at h
      cases cs with
      | nil => cases h
      | cons c cs =>
        obtain ⟨used, plain, rfl, reads⟩ := readMemberEscape_cons_readsOff h
        exact ⟨'\\' :: c :: used, rfl, fun _ => .escape plain.enclosed,
          fun rest' same => reads rest' fun _ => .inl same⟩
    · rw [readAnyMember_of_ne hyphen backslash] at h
      cases h
      refine ⟨[c], rfl, fun closing => ?_,
        fun rest' _ => readAnyMember_of_ne hyphen backslash rest'⟩
      exact .char backslash (fun eq => closing (by rw [eq]; rfl)) .nil

/-- The same holds if the character has to be one that a set can hold. -/
theorem takesMember_readMember {member : Member} (h : readMember cs = .ok (member, rest)) :
    TakesMember readMember cs member rest := by
  obtain ⟨⟨any, left⟩, read, h⟩ := bind_eq_ok.1 h
  obtain ⟨used, rfl, enclosed, reads⟩ := takesMember_readAnyMember read
  dsimp only at h
  split at h
  · next c =>
    split at h
    · cases h
    · next small =>
      cases h
      refine ⟨used, rfl, enclosed, fun rest' same => bind_eq_ok.2 ⟨_, reads rest' same, ?_⟩⟩
      exact if_neg small
  · cases h
    exact ⟨used, rfl, enclosed, fun rest' same => bind_eq_ok.2 ⟨_, reads rest' same, rfl⟩⟩

/-! ## Items -/

/-- A range goes on behind a hyphen, unless this is the last character of the set. -/
theorem rangeEnd?_eq_some_iff {behind : List Char} : rangeEnd? cs = some behind ↔
    cs = '-' :: behind ∧ behind ≠ [] ∧ behind.head? ≠ some ']' := by
  unfold rangeEnd?
  split
  · refine iff_of_false nofun ?_
    rintro ⟨eq, -, closing⟩
    rw [← (List.cons.inj eq).2] at closing
    exact closing rfl
  · next c rest closing =>
    constructor
    · rintro ⟨⟩
      exact ⟨rfl, List.cons_ne_nil c rest, fun head => closing (Option.some.inj head)⟩
    · rintro ⟨eq, -⟩
      rw [(List.cons.inj eq).2]
  · next single =>
    refine iff_of_false nofun ?_
    rintro ⟨rfl, some, -⟩
    obtain ⟨c, rest, rfl⟩ := List.exists_cons_of_ne_nil some
    exact single c rest rfl

/-- A set goes on in the same way; what follows a hyphen counts as well, because a range may begin
there. -/
def GoesOn (rest rest' : List Char) : Prop :=
  rest'.head? = rest.head? ∧ (rest.head? = some '-' → rest'.tail.head? = rest.tail.head?)

theorem GoesOn.rangeEnd? {rest' : List Char} (goesOn : GoesOn rest rest')
    (noRange : Reading.rangeEnd? rest = none) : Reading.rangeEnd? rest' = none := by
  obtain ⟨head, next⟩ := goesOn
  by_contra found
  obtain ⟨behind, range⟩ := Option.ne_none_iff_exists'.1 found
  obtain ⟨rfl, more, closing⟩ := rangeEnd?_eq_some_iff.1 range
  have tail : behind.head? = rest.tail.head? := next head.symm
  have range : Reading.rangeEnd? rest = some rest.tail := by
    apply rangeEnd?_eq_some_iff.2
    refine ⟨?_, ?_, tail ▸ closing⟩
    · exact (List.cons_head?_tail head.symm).symm
    · rintro nil
      rw [nil, List.head?_nil] at tail
      exact more (List.head?_eq_none_iff.1 tail)
  rw [noRange] at range
  cases range

/-- An item is read off the front of the inside of a set, as long as it goes on in the same way. -/
theorem readItem_append {item : ClassItem} (h : readItem cs = .ok (item, rest)) :
    ∃ used, cs = used ++ rest ∧ (cs.head? ≠ some ']' → Enclosed used) ∧
      ∀ rest', GoesOn rest rest' → readItem (used ++ rest') = .ok (item, rest') := by
  obtain ⟨⟨first, left⟩, read, single⟩ := bind_eq_ok.1 h
  obtain ⟨used, rfl, enclosed, reads⟩ := takesMember_readMember read
  dsimp only at single
  split at single
  · cases single
    exact ⟨used, rfl, enclosed,
      fun rest' goesOn => bind_eq_ok.2 ⟨_, reads rest' goesOn.1, rfl⟩⟩
  split at single
  · next noRange =>
    cases single
    refine ⟨used, rfl, enclosed, fun rest' goesOn => ?_⟩
    refine bind_eq_ok.2 ⟨_, reads rest' goesOn.1, ?_⟩
    dsimp only
    rw [goesOn.rangeEnd? noRange]
  · next behind range =>
    obtain ⟨rfl, more, closing⟩ := rangeEnd?_eq_some_iff.1 range
    obtain ⟨⟨last, left⟩, read', range⟩ := bind_eq_ok.1 single
    obtain ⟨used', rfl, enclosed', reads'⟩ := takesMember_readMember read'
    dsimp only at range
    split at range
    · cases range
    split at range
    · cases range
    · next inOrder =>
      cases range
      refine ⟨used ++ '-' :: used', by simp, fun head => ?_, fun rest' goesOn => ?_⟩
      · exact (enclosed head).append (.char (by decide) (by decide) (enclosed' closing))
      have head := head?_append_congr used' goesOn.1
      have range' : rangeEnd? ('-' :: (used' ++ rest')) = some (used' ++ rest') := by
        apply rangeEnd?_eq_some_iff.2
        refine ⟨rfl, fun nil => more ?_, head ▸ closing⟩
        rw [nil] at head
        exact List.head?_eq_none_iff.1 head.symm
      rw [List.append_assoc, List.cons_append]
      refine bind_eq_ok.2 ⟨_, reads _ rfl, ?_⟩
      dsimp only
      rw [range']
      refine bind_eq_ok.2 ⟨_, reads' rest' goesOn.1, ?_⟩
      exact if_neg inOrder

/-- Items are read one after the other. -/
theorem readItems_cons {unclosed : Fault} {c : Char} {tail left : List Char} {item : ClassItem}
    (closing : c ≠ ']') (read : readItem (c :: tail) = .ok (item, left)) :
    readItems unclosed (c :: tail) = (readItems unclosed left).map fun read =>
      (item :: read.1, read.2) := by
  rw [readItems]
  · split
    · next failed => cases read.symm.trans failed
    · next read' =>
      cases read.symm.trans read'
      rfl
  · exact closing

/-- The items of a set are read up to the closing bracket, whatever follows it. -/
theorem readItems_append {unclosed : Fault} {items : List ClassItem}
    (h : readItems unclosed cs = .ok (items, rest)) :
    ∃ inside, Enclosed inside ∧ cs = inside ++ ']' :: rest ∧
      ∀ unclosed' rest', readItems unclosed' (inside ++ ']' :: rest') = .ok (items, rest') := by
  fun_induction readItems unclosed cs generalizing items with
  | case1 => cases h
  | case2 =>
    cases h
    exact ⟨[], .nil, rfl, fun unclosed' rest' => by rw [List.nil_append, readItems]⟩
  | case3 => cases h
  | case4 c tail closing item left read ih =>
    obtain ⟨⟨more, stop⟩, others, h⟩ := bind_eq_ok.1 h
    cases h
    obtain ⟨inside, enclosed', rfl, reads'⟩ := ih others
    obtain ⟨used, split, enclosed, reads⟩ := readItem_append read
    have enclosed : Enclosed used := enclosed (by simpa using closing)
    refine ⟨used ++ inside, enclosed.append enclosed', by rw [split, List.append_assoc],
      fun unclosed' rest' => ?_⟩
    have goesOn : GoesOn (inside ++ ']' :: rest) (inside ++ ']' :: rest') := by
      refine ⟨head?_append_congr inside rfl, fun hyphen => ?_⟩
      cases inside with
      | nil => cases hyphen
      | cons d inside => exact head?_append_congr inside rfl
    have read' := reads _ goesOn
    obtain - | ⟨d, used⟩ := used
    · have := readItem_length read
      rw [split, List.nil_append] at this
      exact absurd this (lt_irrefl _)
    obtain ⟨rfl, -⟩ := List.cons.inj split
    rw [List.append_assoc, List.cons_append]
    rw [List.cons_append] at read'
    rw [readItems_cons closing read', reads']
    rfl

/-! ## Whole sets -/

/-- What stands behind an opening bracket, up to the closing one: a caret and a closing bracket may
stand in front. -/
inductive IsSet : List Char → Prop
  | intro {caret first inside : List Char} : caret = [] ∨ caret = ['^'] →
      first = [] ∧ inside ≠ [] ∨ first = [']'] → (caret = [] → (first ++ inside).head? ≠ some '^') →
      Enclosed inside → IsSet (caret ++ (first ++ (inside ++ [']'])))

/-- A bracket that is closed at once is a character, and this depends on itself alone. -/
theorem leadingItem_append (cs : List Char) : ∃ used, cs = used ++ (leadingItem cs).2 ∧
    (used = [']'] ∨ cs.head? ≠ some ']' ∧ Enclosed used) ∧
    ∀ rest', rest'.head? = (leadingItem cs).2.head? →
      leadingItem (used ++ rest') = ((leadingItem cs).1, rest') := by
  unfold leadingItem
  split
  · exact ⟨[']'], rfl, .inl rfl, fun _ _ => rfl⟩
  · exact ⟨['-'], rfl, .inr ⟨by simp, .char (by decide) (by decide) .nil⟩, fun _ _ => rfl⟩
  · next closing hyphen =>
    have ne : cs.head? ≠ some ']' := fun head => closing _ (List.cons_head?_tail head).symm
    refine ⟨[], rfl, .inr ⟨ne, .nil⟩, fun rest' same => ?_⟩
    rw [List.nil_append]
    have same : rest'.head? = cs.head? := same
    split
    · exact absurd (List.cons_head?_tail same.symm).symm (closing _)
    · exact absurd (List.cons_head?_tail same.symm).symm (hyphen _)
    · rfl

/-- The inside of a set behind the caret that negates it. -/
def behindCaret (cs : List Char) : List Char :=
  if cs.head? != some '^' then cs else cs.drop 1

/-- A caret in front depends on itself alone. -/
theorem behindCaret_append (cs : List Char) : ∃ used, cs = used ++ behindCaret cs ∧
    (used = [] ∧ cs.head? ≠ some '^' ∨ used = ['^']) ∧
    ∀ rest', rest'.head? = (behindCaret cs).head? → behindCaret (used ++ rest') = rest' ∧
      (used ++ rest').head? = cs.head? := by
  unfold behindCaret
  by_cases negated : cs.head? = some '^'
  · obtain ⟨tail, rfl⟩ : ∃ tail, cs = '^' :: tail := ⟨_, (List.cons_head?_tail negated).symm⟩
    exact ⟨['^'], rfl, .inr rfl, fun _ _ => ⟨rfl, rfl⟩⟩
  · have positive : (cs.head? != some '^') = true := by simpa using negated
    rw [if_pos positive]
    refine ⟨[], rfl, .inl ⟨rfl, negated⟩, fun rest' same => ?_⟩
    rw [List.nil_append, same, if_pos positive]
    exact ⟨rfl, rfl⟩

/-- A set is that of its items, behind a caret and a bracket that stands for itself. -/
theorem readBracket_eq_ok_iff {unclosed : Fault} {set : CharSet} :
    readBracket unclosed cs = .ok (set, rest) ↔
      ∃ items, readItems unclosed (leadingItem (behindCaret cs)).2 = .ok (items, rest) ∧
        set = .ofItems (cs.head? != some '^') ((leadingItem (behindCaret cs)).1 ++ items) := by
  constructor
  · intro h
    obtain ⟨⟨items, left⟩, read, h⟩ := bind_eq_ok.1 h
    cases h
    exact ⟨items, read, rfl⟩
  · rintro ⟨items, read, rfl⟩
    exact bind_eq_ok.2 ⟨_, read, rfl⟩

/-- **A set is read up to its closing bracket**, whatever follows it. -/
theorem readBracket_append {unclosed : Fault} {set : CharSet}
    (h : readBracket unclosed cs = .ok (set, rest)) :
    ∃ used, IsSet used ∧ cs = used ++ rest ∧
      ∀ unclosed' rest', readBracket unclosed' (used ++ rest') = .ok (set, rest') := by
  obtain ⟨items, read, rfl⟩ := readBracket_eq_ok_iff.1 h
  obtain ⟨caret, eq, negation, behind⟩ := behindCaret_append cs
  obtain ⟨leading, eq', bracket, starts⟩ := leadingItem_append (behindCaret cs)
  obtain ⟨inside, enclosed, eq'', reads⟩ := readItems_append read
  have text : behindCaret cs = leading ++ (inside ++ ']' :: rest) := by rw [← eq'', ← eq']
  have whole (unclosed' : Fault) (rest' : List Char) :
      readBracket unclosed' (caret ++ (leading ++ (inside ++ ']' :: rest'))) =
        .ok (.ofItems (cs.head? != some '^')
          ((leadingItem (behindCaret cs)).1 ++ items), rest') := by
    have same : (inside ++ ']' :: rest').head? = (leadingItem (behindCaret cs)).2.head? := by
      rw [eq'']
      exact head?_append_congr inside rfl
    have same' : (leading ++ (inside ++ ']' :: rest')).head? = (behindCaret cs).head? := by
      rw [head?_append_congr leading same, ← eq']
    obtain ⟨inner, head⟩ := behind _ same'
    rw [readBracket_eq_ok_iff, inner, head, starts _ same]
    exact ⟨items, reads unclosed' rest', rfl⟩
  refine ⟨caret ++ (leading ++ (inside ++ [']'])), ?_, ?_, fun unclosed' rest' => ?_⟩
  · have caret' : caret = [] ∨ caret = ['^'] := negation.imp And.left id
    rcases bracket with rfl | ⟨ne, enclosed'⟩
    · exact .intro caret' (.inr rfl) (fun _ => by simp) enclosed
    · rw [← List.append_assoc leading, ← List.nil_append (leading ++ inside ++ [']'])]
      refine .intro caret' (.inl ⟨rfl, fun nil => ne ?_⟩) (fun none => ?_)
        (enclosed'.append enclosed)
      · rw [text, ← List.append_assoc, nil]
        rfl
      · rcases negation with ⟨-, positive⟩ | negated
        · intro head
          refine absurd ?_ positive
          rw [eq, text, none, List.nil_append, ← List.append_assoc, List.head?_append]
          rw [List.nil_append] at head
          rw [head]
          rfl
        · exact absurd (none.symm.trans negated) (by simp)
  · rw [List.append_assoc, List.append_assoc, List.append_assoc, List.singleton_append, ← text, ← eq]
  · rw [List.append_assoc, List.append_assoc, List.append_assoc, List.singleton_append]
    exact whole unclosed' rest'

end PatternSampler.Reading
