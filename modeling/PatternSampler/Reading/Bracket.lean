/-
# Sets in brackets

The items between an opening and a closing bracket.

* `readMember` reads one character or shorthand class, `readItem` an item, which may be a range.
* `readBracket` reads everything behind the opening bracket.
-/
import PatternSampler.CharSet.Basic
import PatternSampler.Reading.Escape

namespace PatternSampler.Reading

/-- One end of a range, or an item of its own. -/
inductive Member where
  | char (c : Char)
  | shorthand (kind : Shorthand)

/-- Reads an escape inside of a set, starting behind the backslash. -/
def readMemberEscape (cs : List Char) : Except Fault (Member × List Char) :=
  match cs with
  | [] => .error (fault [] .classEscapeUnfinished)
  | c :: rest =>
    if c = 'x' ∨ c = 'u' ∨ c.isDigit then do
      let (value, rest) ← readCodePoint cs
      .ok (.char value, rest)
    else
      match Shorthand.ofLetter? c with
      | some kind => .ok (.shorthand kind, rest)
      | none =>
        match if c = 'b' then some '\x08' else escapedChar? c with
        | some value => .ok (.char value, rest)
        | none => .error (fault cs .classEscapeUnknown)

/-- Reads one character or shorthand class.  A hyphen stands for itself only at the end. -/
def readAnyMember (cs : List Char) : Except Fault (Member × List Char) :=
  match cs with
  | [] => .error (fault [] .classUnterminated)
  | '-' :: rest =>
    if rest.head? = some ']' then .ok (.char '-', rest) else .error (fault cs .classItemInvalid)
  | '\\' :: rest => readMemberEscape rest
  | c :: rest => .ok (.char c, rest)

/-- Reads one character that a set can hold, or a shorthand class. -/
def readMember (cs : List Char) : Except Fault (Member × List Char) := do
  let (member, rest) ← readAnyMember cs
  match member with
  | .char c =>
    if CharSet.lastChar < c then .error (fault cs .classCharTooLarge) else .ok (.char c, rest)
  | .shorthand kind => .ok (.shorthand kind, rest)

/-- What follows the hyphen of a range, if a range goes on here: a hyphen before the closing bracket
is an item of its own. -/
def rangeEnd? : List Char → Option (List Char)
  | '-' :: ']' :: _ => none
  | '-' :: c :: rest => some (c :: rest)
  | _ => none

/-- Reads one item. -/
def readItem (cs : List Char) : Except Fault (ClassItem × List Char) := do
  let (member, rest) ← readMember cs
  match member with
  | .shorthand kind => .ok (.shorthand kind, rest)
  | .char first =>
    match rangeEnd? rest with
    | none => .ok (.char first, rest)
    | some behind => do
      let (member, rest) ← readMember behind
      match member with
      | .shorthand _ => .error (fault behind .classRangeEnd)
      | .char last =>
        if last < first then .error (fault behind .classRangeReversed)
        else .ok (.range first last, rest)

/-! ## What is left is shorter -/

theorem readMemberEscape_length {cs rest : List Char} {member : Member}
    (h : readMemberEscape cs = .ok (member, rest)) : rest.length < cs.length := by
  unfold readMemberEscape at h
  split at h
  · cases h
  · simp only [List.length_cons, Nat.lt_succ_iff]
    split at h
    · next start =>
      obtain ⟨⟨value, left⟩, read, h⟩ := bind_eq_ok.1 h
      cases h
      exact readCodePoint_length start read
    split at h
    · cases h
      exact Nat.le_refl _
    split at h
    · cases h
      exact Nat.le_refl _
    · cases h

theorem readAnyMember_length {cs rest : List Char} {member : Member}
    (h : readAnyMember cs = .ok (member, rest)) : rest.length < cs.length := by
  unfold readAnyMember at h
  split at h
  · cases h
  · split at h
    · cases h
      simp
    · cases h
  · have := readMemberEscape_length h
    simp only [List.length_cons]
    omega
  · cases h
    simp

theorem readMember_length {cs rest : List Char} {member : Member}
    (h : readMember cs = .ok (member, rest)) : rest.length < cs.length := by
  obtain ⟨⟨read, left⟩, eq, h⟩ := bind_eq_ok.1 h
  have := readAnyMember_length eq
  dsimp only at h
  split at h
  · split at h
    · cases h
    · cases h
      exact this
  · cases h
    exact this

theorem rangeEnd?_length {cs behind : List Char} (h : rangeEnd? cs = some behind) :
    behind.length < cs.length := by
  unfold rangeEnd? at h
  split at h
  · cases h
  · cases h
    simp
  · cases h

theorem readItem_length {cs rest : List Char} {item : ClassItem}
    (h : readItem cs = .ok (item, rest)) : rest.length < cs.length := by
  obtain ⟨⟨first, left⟩, read, h⟩ := bind_eq_ok.1 h
  have short := readMember_length read
  dsimp only at h
  split at h
  · cases h
    exact short
  · split at h
    · cases h
      exact short
    · next behind eq =>
      obtain ⟨⟨last, left⟩, read, h⟩ := bind_eq_ok.1 h
      have shorter := readMember_length read
      have := rangeEnd?_length eq
      dsimp only at h
      split at h
      · cases h
      · split at h
        · cases h
        · cases h
          omega

/-! ## All items -/

/-- Reads items up to the closing bracket and that bracket; `unclosed` is the fault of a text that
ends before it. -/
def readItems (unclosed : Fault) (cs : List Char) : Except Fault (List ClassItem × List Char) :=
  match cs with
  | [] => .error unclosed
  | ']' :: rest => .ok ([], rest)
  | c :: tail =>
    match _ : readItem (c :: tail) with
    | .error e => .error e
    | .ok (item, rest) => do
      let (items, rest) ← readItems unclosed rest
      .ok (item :: items, rest)
termination_by cs.length
decreasing_by exact readItem_length (by assumption)

/-- The first item, if it is a closing bracket or a hyphen, which stand for themselves there. -/
def leadingItem : List Char → List ClassItem × List Char
  | ']' :: rest => ([.char ']'], rest)
  | '-' :: rest => ([.char '-'], rest)
  | cs => ([], cs)

/-- Reads the set behind an opening bracket; `unclosed` is the fault of a text that ends before the
closing one. -/
def readBracket (unclosed : Fault) (cs : List Char) : Except Fault (CharSet × List Char) := do
  let positive := cs.head? != some '^'
  let (leading, rest) := leadingItem (if positive then cs else cs.drop 1)
  let (items, rest) ← readItems unclosed rest
  .ok (CharSet.ofItems positive (leading ++ items), rest)

theorem readItems_length {unclosed : Fault} {cs rest : List Char} {items : List ClassItem}
    (h : readItems unclosed cs = .ok (items, rest)) : rest.length < cs.length := by
  fun_induction readItems unclosed cs generalizing items with
  | case1 => cases h
  | case2 =>
    cases h
    simp
  | case3 => cases h
  | case4 c tail _ item left read ih =>
    obtain ⟨⟨more, end_⟩, eq, h⟩ := bind_eq_ok.1 h
    cases h
    have := readItem_length read
    have := ih eq
    omega

theorem length_leadingItem (cs : List Char) : (leadingItem cs).2.length ≤ cs.length := by
  unfold leadingItem
  split <;> simp

theorem readBracket_length {unclosed : Fault} {cs rest : List Char} {set : CharSet}
    (h : readBracket unclosed cs = .ok (set, rest)) : rest.length < cs.length := by
  obtain ⟨⟨items, left⟩, read, h⟩ := bind_eq_ok.1 h
  cases h
  have short := Nat.lt_of_lt_of_le (readItems_length read) (length_leadingItem _)
  refine Nat.lt_of_lt_of_le short ?_
  split <;> simp

end PatternSampler.Reading
