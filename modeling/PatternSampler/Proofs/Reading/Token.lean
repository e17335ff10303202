/-
# Atoms, heads of groups and quantifiers as texts

The smallest parts of a pattern are read off the front of a text, whatever follows it: a run of
plain characters unless it goes on, a quantifier unless a question mark follows.

* `IsRun` : a text that is read as a run of plain characters.
* `Reading.readAtom_run` and `Reading.readAtom_readsOff` : atoms.
* `Reading.readGroupHead_append`, `Reading.readQuantifier_append` : heads of groups, quantifiers.
-/
import PatternSampler.Proofs.Reading.Bracket

namespace PatternSampler.Reading

variable {cs rest used : List Char}

/-! ## Atoms -/

/-- Whether a character ends no run of plain ones. -/
def isPlainChar (c : Char) : Bool :=
  c ∉ metaChars

/-- A text that is read as a run of plain characters.  The first one need not be plain. -/
inductive IsRun : List Char → Prop
  | intro {c : Char} {others : List Char} : c ∉ misplacedChars →
      c ∉ ['(', '[', '\\', '.', '^', '$'] → (∀ d ∈ others, isPlainChar d = true) →
      IsRun (c :: others)

/-- Any other character begins a run of plain ones. -/
theorem readAtom_text {c : Char} (placed : c ∉ misplacedChars)
    (plain : c ∉ ['(', '[', '\\', '.', '^', '$']) (cs : List Char) :
    readAtom (c :: cs) =
      .ok (.text (c :: cs.takeWhile isPlainChar), cs.dropWhile isPlainChar) := by
  simp only [List.mem_cons, List.not_mem_nil, or_false, not_or] at plain
  obtain ⟨-, bracket, backslash, dot, caret, dollar⟩ := plain
  rw [readAtom.eq_5 c cs (fun rest eq _ => bracket eq) bracket backslash]
  rw [if_neg placed, if_neg dot, if_neg (not_or.2 ⟨caret, dollar⟩)]
  rfl

/-- A run is read as it is, unless more plain characters follow. -/
theorem readAtom_run (run : IsRun used) (stops : Stops isPlainChar rest) :
    readAtom (used ++ rest) = .ok (.text used, rest) := by
  obtain ⟨placed, plain, all⟩ := run
  rw [List.cons_append, readAtom_text placed plain, takeWhile_append all stops,
    dropWhile_append all stops]

/-- The name of a macro has letters only and is closed behind them. -/
theorem readMacroName_eq_ok_iff {start : List Char} {name : String} :
    readMacroName start cs = .ok (name, rest) ↔
      name = String.ofList (cs.takeWhile Char.isAlpha) ∧
        cs.dropWhile Char.isAlpha = ':' :: ']' :: rest := by
  unfold readMacroName
  split
  · next left eq =>
    rw [eq]
    constructor
    · rintro ⟨⟩
      exact ⟨rfl, rfl⟩
    · rintro ⟨rfl, ⟨⟩⟩
      rfl
  · next malformed =>
    refine iff_of_false nofun ?_
    rintro ⟨-, eq⟩
    exact malformed rest eq

theorem readMacroName_append {start : List Char} {name : String}
    (h : readMacroName start cs = .ok (name, rest)) :
    cs = cs.takeWhile Char.isAlpha ++ ':' :: ']' :: rest ∧ ∀ start' rest',
      readMacroName start' (cs.takeWhile Char.isAlpha ++ ':' :: ']' :: rest') =
        .ok (name, rest') := by
  obtain ⟨rfl, eq⟩ := readMacroName_eq_ok_iff.1 h
  refine ⟨?_, fun start' rest' => ?_⟩
  · rw [← eq, List.takeWhile_append_dropWhile]
  · have all : ∀ d ∈ cs.takeWhile Char.isAlpha, d.isAlpha = true :=
      fun _ mem => List.mem_takeWhile_imp mem
    have stops : Stops Char.isAlpha (':' :: ']' :: rest') := by
      rintro _ ⟨⟩
      decide
    rw [readMacroName_eq_ok_iff, takeWhile_append all stops, dropWhile_append all stops]
    exact ⟨rfl, rfl⟩

/-- A text begins with a backslash and a digit: an octal number or a backreference. -/
def Numeric (cs : List Char) : Prop :=
  ∃ c tail, cs = '\\' :: c :: tail ∧ c.isDigit = true

/-- What makes up an atom that is neither a group nor a run of plain characters, if `rest` follows:
a single character, an escape, or a set or a macro in brackets. -/
inductive IsToken (rest : List Char) : List Char → Prop
  | single {c : Char} : c ∈ ['.', '^', '$'] → IsToken rest [c]
  | escape {c : Char} {used : List Char} : c.isDigit = false → c ≠ 'i' → Plain used →
      IsToken rest ('\\' :: c :: used)
  | number {c : Char} {used : List Char} : c.isDigit = true →
      numberTail c (used ++ rest) = used → IsToken rest ('\\' :: c :: used)
  | set {used : List Char} : IsSet used → IsToken rest ('[' :: used)

/-- An atom that is neither a group nor a run of plain characters. -/
structure ReadsAtom (cs used : List Char) (a : Atom) (rest : List Char) : Prop
    extends ReadsOff (Numeric used) readAtom cs used a rest where
  token : IsToken rest used

/-- **An atom that is no group** is a run of plain characters, or it is read off the front of its
text. -/
theorem readAtom_cases {a : Atom} (group : cs.head? ≠ some '(')
    (h : readAtom cs = .ok (a, rest)) :
    (∃ used, IsRun used ∧ a = .text used ∧ cs = used ++ rest ∧ Stops isPlainChar rest) ∨
      ∃ used, ReadsAtom cs used a rest := by
  cases cs with
  | nil => cases h
  | cons c cs =>
    by_cases bracket : c = '['
    · subst bracket
      right
      by_cases named : cs.head? = some ':'
      · obtain ⟨tail, rfl⟩ : ∃ tail, cs = ':' :: tail := ⟨_, (List.cons_head?_tail named).symm⟩
        obtain ⟨⟨name, left⟩, read, h⟩ := bind_eq_ok.1 h
        cases h
        obtain ⟨split, reads⟩ := readMacroName_append read
        refine ⟨'[' :: ':' :: (tail.takeWhile Char.isAlpha ++ [':', ']']), ⟨?_, ?_⟩, .set ?_⟩
        · simpa using split
        · intro rest' _
          have read' := reads ('[' :: ':' :: (tail.takeWhile Char.isAlpha ++ ':' :: ']' :: rest'))
            rest'
          simp only [List.cons_append, List.append_assoc, List.nil_append]
          exact bind_eq_ok.2 ⟨_, read', rfl⟩
        · have letters : Plain (tail.takeWhile Char.isAlpha) :=
            plain_takeWhile (by decide) (by decide) (by decide) tail
          have inside : Enclosed (':' :: (tail.takeWhile Char.isAlpha ++ [':'])) :=
            (letters.append (.cons (by decide) .nil)).cons (by decide) |>.enclosed
          simpa using IsSet.intro (.inl rfl) (.inl ⟨rfl, List.cons_ne_nil _ _⟩) (by simp) inside
      · have unfolded (cs : List Char) (other : cs.head? ≠ some ':') : readAtom ('[' :: cs) = _ :=
          readAtom.eq_3 cs fun rest eq => other (by rw [eq]; rfl)
        rw [unfolded cs named] at h
        obtain ⟨⟨set, left⟩, read, h⟩ := bind_eq_ok.1 h
        cases h
        obtain ⟨used, isSet, rfl, reads⟩ := readBracket_append read
        refine ⟨'[' :: used, ⟨rfl, fun rest' _ => ?_⟩, .set isSet⟩
        obtain - | ⟨d, used⟩ := used
        · exact absurd (readBracket_length read) (lt_irrefl _)
        · exact (unfolded (d :: used ++ rest') named).trans (bind_eq_ok.2 ⟨_, reads _ rest', rfl⟩)
    by_cases backslash : c = '\\'
    · subst backslash
      right
      obtain ⟨⟨escape, left⟩, read, h⟩ := bind_eq_ok.1 h
      cases h
      cases cs with
      | nil => cases read
      | cons c cs =>
        obtain ⟨used, plain, number, rfl, reads⟩ := readEscape_cons_readsOff read
        refine ⟨'\\' :: c :: used, ⟨rfl, fun rest' follows => ?_⟩, ?_⟩
        · have follows : c.isDigit = true → Follows rest rest' := fun digit =>
            follows ⟨c, used, rfl, digit⟩
          exact bind_eq_ok.2 ⟨_, reads rest' follows, rfl⟩
        · by_cases digit : c.isDigit = true
          · exact .number digit (number digit).symm
          · refine .escape (by simpa using digit) ?_ plain
            rintro rfl
            simp [readEscape, Shorthand.ofLetter?] at read
    have unfolded (cs : List Char) : readAtom (c :: cs) = _ :=
      readAtom.eq_5 c cs (fun rest eq _ => bracket eq) bracket backslash
    by_cases placed : c ∈ misplacedChars
    · simp only [if_pos placed] at unfolded
      cases (unfolded cs).symm.trans h
    by_cases dot : c = '.'
    · simp only [if_neg placed, if_pos dot] at unfolded
      right
      cases (unfolded cs).symm.trans h
      exact ⟨[c], ⟨rfl, fun rest' _ => unfolded rest'⟩, .single (by simp [dot])⟩
    by_cases anchor : c = '^' ∨ c = '$'
    · simp only [if_neg placed, if_neg dot, if_pos anchor] at unfolded
      right
      cases (unfolded cs).symm.trans h
      refine ⟨[c], ⟨rfl, fun rest' _ => unfolded rest'⟩, .single ?_⟩
      rcases anchor with rfl | rfl <;> decide
    · left
      have plain : c ∉ ['(', '[', '\\', '.', '^', '$'] := by
        have group : c ≠ '(' := fun eq => group (by rw [eq]; rfl)
        simp [group, bracket, backslash, dot, anchor]
      cases (readAtom_text placed plain cs).symm.trans h
      refine ⟨_, .intro placed plain fun _ mem => List.mem_takeWhile_imp mem, rfl, ?_,
        stops_dropWhile _ _⟩
      rw [List.cons_append, List.takeWhile_append_dropWhile]

/-! ## Heads of groups -/

/-- A group without a question mark has a number. -/
theorem readGroupHead_of_ne (plain : cs.head? ≠ some '?') :
    readGroupHead cs = .ok (.numbered, cs) := by
  unfold readGroupHead
  split
  · exact absurd rfl plain
  · exact absurd rfl plain
  · rfl

/-- A name behind the question mark makes the group a named one. -/
theorem readGroupHead_of_readGroupName {name : String} (h : readGroupName cs = .ok (name, rest)) :
    readGroupHead ('?' :: cs) = .ok (.named name, rest) := by
  have read := h
  unfold readGroupName at h
  split at h
  · next tail =>
    obtain ⟨begins, -, -⟩ := readGroupName_body_eq_ok_iff.1 h
    -- a name does not begin with what makes a lookbehind
    have other (c : Char) (punctuation : (c.isAlpha || c == '_') = false) (rest : List Char) :
        tail ≠ c :: rest := by
      rintro rfl
      exact Bool.false_ne_true (punctuation.symm.trans begins)
    rw [readGroupHead.eq_6 tail (other '=' (by decide)) (other '!' (by decide)) (by simp)]
    exact bind_eq_ok.2 ⟨_, read, rfl⟩
  · exact bind_eq_ok.2 ⟨_, read, rfl⟩
  · cases h

/-- Behind a question mark a group has no number, and perhaps a name. -/
theorem readGroupHead_question_eq_ok_iff {kind : GroupKind} :
    readGroupHead ('?' :: cs) = .ok (kind, rest) ↔ (kind = .plain ∧ cs = ':' :: rest) ∨
      ∃ name, kind = .named name ∧ readGroupName cs = .ok (name, rest) := by
  have named (tail : List Char)
      (h : (readGroupName tail >>= fun read => Except.ok (GroupKind.named read.1, read.2)) =
        Except.ok (kind, rest)) :
      ∃ name, kind = .named name ∧ readGroupName tail = .ok (name, rest) := by
    obtain ⟨⟨name, left⟩, read, h⟩ := bind_eq_ok.1 h
    cases h
    exact ⟨name, rfl, read⟩
  constructor
  · intro h
    unfold readGroupHead at h
    split at h
    · next eq =>
      cases eq
      cases h
      exact .inl ⟨rfl, rfl⟩
    · next eq =>
      cases eq
      right
      split at h
      · cases h
      · cases h
      · cases h
      · cases h
      · exact named _ h
      · exact named _ h
      · cases h
    · next question => exact absurd rfl (question cs)
  · rintro (⟨rfl, rfl⟩ | ⟨name, rfl, read⟩)
    · rfl
    · exact readGroupHead_of_readGroupName read

/-- **The head of a group** is nothing at all, or it is read off the front of the text whatever
follows it. -/
theorem readGroupHead_cases {kind : GroupKind} (h : readGroupHead cs = .ok (kind, rest)) :
    (kind = .numbered ∧ cs = rest ∧ cs.head? ≠ some '?') ∨
      ∃ used, Plain used ∧ cs = '?' :: used ++ rest ∧
        ∀ rest', readGroupHead ('?' :: used ++ rest') = .ok (kind, rest') := by
  by_cases question : cs.head? = some '?'
  · right
    obtain ⟨tail, rfl⟩ : ∃ tail, cs = '?' :: tail := ⟨_, (List.cons_head?_tail question).symm⟩
    obtain ⟨rfl, rfl⟩ | ⟨name, rfl, read⟩ := readGroupHead_question_eq_ok_iff.1 h
    · exact ⟨[':'], .cons (by decide) .nil, rfl, fun _ => rfl⟩
    · obtain ⟨used, plain, rfl, reads⟩ := readGroupName_append read
      exact ⟨used, plain, rfl, fun rest' => readGroupHead_of_readGroupName (reads rest')⟩
  · left
    cases (readGroupHead_of_ne question).symm.trans h
    exact ⟨rfl, rfl, question⟩

/-! ## Quantifiers -/

/-- A bound takes all digits, of which there is one at least. -/
theorem readBound_eq_ok_iff {n : ℕ} : readBound cs = .ok (n, rest) ↔
    cs.takeWhile Char.isDigit ≠ [] ∧ numberOf 10 (cs.takeWhile Char.isDigit) ≤ maxBound ∧
      n = numberOf 10 (cs.takeWhile Char.isDigit) ∧ rest = cs.dropWhile Char.isDigit := by
  show (if (cs.takeWhile Char.isDigit).isEmpty = true then _
    else if wordMax < numberOf 10 (cs.takeWhile Char.isDigit) then _
    else if maxBound < numberOf 10 (cs.takeWhile Char.isDigit) then _ else _) = _ ↔ _
  constructor
  · intro h
    split at h
    · cases h
    next some =>
    split at h
    · cases h
    split at h
    · cases h
    next small =>
    cases h
    exact ⟨fun nil => some (by rw [nil]; rfl), not_lt.1 small, rfl, rfl⟩
  · rintro ⟨some, small, rfl, rfl⟩
    have word : maxBound ≤ wordMax := by decide
    rw [if_neg (by simpa using some), if_neg (not_lt.2 (small.trans word)), if_neg (not_lt.2 small)]

/-- A bound is read off the front of a text unless digits follow it. -/
theorem readBound_append {digits : List Char} (all : ∀ c ∈ digits, c.isDigit = true)
    (some : digits ≠ []) (small : numberOf 10 digits ≤ maxBound) (stops : Stops Char.isDigit rest) :
    readBound (digits ++ rest) = .ok (numberOf 10 digits, rest) := by
  rw [readBound_eq_ok_iff, takeWhile_append all stops, dropWhile_append all stops]
  exact ⟨some, small, rfl, rfl⟩

/-- A bound depends on its digits and on that no other one follows. -/
theorem readBound_readsOff {n : ℕ} (h : readBound cs = .ok (n, rest)) :
    ∃ used, used ≠ [] ∧ Plain used ∧ ReadsOff True readBound cs used n rest := by
  obtain ⟨some, small, rfl, rfl⟩ := readBound_eq_ok_iff.1 h
  refine ⟨cs.takeWhile Char.isDigit, some, plain_digits cs,
    (List.takeWhile_append_dropWhile).symm, fun rest' follows => ?_⟩
  apply readBound_append _ some small
  · exact (stops_dropWhile _ _).of_follows (fun _ h => h) (follows trivial)
  · exact fun _ mem => List.mem_takeWhile_imp mem

/-- The upper bound depends on what it takes, if the braces are closed behind it. -/
theorem readMost_append {least : ℕ} {most : Option ℕ}
    (h : readMost least cs = .ok (most, rest)) (closing : rest.head? = some '}') :
    ∃ used, Plain used ∧ cs = used ++ rest ∧
      ∀ rest', rest'.head? = some '}' → readMost least (used ++ rest') = .ok (most, rest') := by
  unfold readMost at h
  split at h
  · cases h
    refine ⟨[','], .cons (by decide) .nil, rfl, fun rest' head => ?_⟩
    rw [← List.cons_head?_tail head]
    rfl
  · next rest₁ comma =>
    obtain ⟨⟨n, left⟩, read, h⟩ := bind_eq_ok.1 h
    cases h
    obtain ⟨used, some, plain, rfl, reads⟩ := readBound_readsOff read
    refine ⟨',' :: used, plain.cons (by decide), rfl, fun rest' head => ?_⟩
    have unfolded : readMost least (',' :: (used ++ rest')) = _ :=
      readMost.eq_2 least (used ++ rest') fun tail eq => by
        obtain ⟨c, used, rfl⟩ := List.exists_cons_of_ne_nil some
        exact comma (used ++ rest) (by rw [(List.cons.inj eq).1]; rfl)
    rw [List.cons_append, unfolded]
    exact bind_eq_ok.2 ⟨_, reads rest' fun _ => .inl (head.trans closing.symm), rfl⟩
  · cases h
    refine ⟨[], .nil, rfl, fun rest' head => ?_⟩
    rw [List.nil_append, ← List.cons_head?_tail head]
    rfl

/-- Braces hold a lower bound and perhaps an upper one that is not less. -/
theorem readBraces_eq_ok_iff {q : Quantifier} : readBraces cs = .ok (q, rest) ↔
    ∃ left, readBound (if cs.head? == some '=' then cs.drop 1 else cs) =
        .ok (q.bounds.least, left) ∧
      readMost q.bounds.least left = .ok (q.bounds.most, '}' :: rest) ∧
      ¬(q.bounds.most.any (· < q.bounds.least)) = true ∧ q.sameText = (cs.head? == some '=') := by
  constructor
  · intro h
    obtain ⟨⟨least, left⟩, first, h⟩ := bind_eq_ok.1 h
    obtain ⟨⟨most, left'⟩, second, h⟩ := bind_eq_ok.1 h
    dsimp only at h
    split at h
    · cases h
    split at h
    · cases h
    next closing =>
    split at h
    · cases h
    next inOrder =>
    cases h
    rw [not_not.1 closing] at second
    exact ⟨left, first, second, inOrder, rfl⟩
  · obtain ⟨⟨least, most⟩, sameText⟩ := q
    rintro ⟨left, first, second, inOrder, rfl⟩
    refine bind_eq_ok.2 ⟨_, first, bind_eq_ok.2 ⟨_, second, ?_⟩⟩
    exact if_neg inOrder

/-- Bounds in braces are read up to the closing brace, whatever follows it. -/
theorem readBraces_append {quantifier : Quantifier}
    (h : readBraces cs = .ok (quantifier, rest)) :
    ∃ used, Plain used ∧ cs = used ++ rest ∧
      ∀ rest', readBraces (used ++ rest') = .ok (quantifier, rest') := by
  obtain ⟨left, first, second, inOrder, same⟩ := readBraces_eq_ok_iff.1 h
  obtain ⟨digits, number, plain, eq, reads⟩ := readBound_readsOff first
  obtain ⟨used, plain', rfl, reads'⟩ := readMost_append second rfl
  have close : Plain ['}'] := .cons (by decide) .nil
  -- what is left of the braces does not depend on what comes before it
  have finish (rest' : List Char) : readBound (digits ++ (used ++ '}' :: rest')) =
      .ok (quantifier.bounds.least, used ++ '}' :: rest') :=
    reads _ fun _ => .inl (head?_append_congr used rfl)
  by_cases equals : cs.head? = some '='
  · obtain ⟨tail, rfl⟩ : ∃ tail, cs = '=' :: tail := ⟨_, (List.cons_head?_tail equals).symm⟩
    obtain rfl : tail = digits ++ (used ++ '}' :: rest) := eq
    refine ⟨'=' :: (digits ++ (used ++ ['}'])), ?_, by simp, fun rest' => ?_⟩
    · exact .cons (by decide) (plain.append (plain'.append close))
    · rw [List.cons_append, List.append_assoc, List.append_assoc, List.singleton_append]
      exact readBraces_eq_ok_iff.2 ⟨_, finish rest', reads' _ rfl, inOrder, same⟩
  · have noEquals : ¬(cs.head? == some '=') = true := by simpa using equals
    rw [if_neg noEquals] at eq
    subst eq
    refine ⟨digits ++ (used ++ ['}']), plain.append (plain'.append close), by simp,
      fun rest' => ?_⟩
    rw [List.append_assoc, List.append_assoc, List.singleton_append]
    obtain ⟨d, digits, rfl⟩ := List.exists_cons_of_ne_nil number
    refine readBraces_eq_ok_iff.2 ⟨_, ?_, reads' _ rfl, inOrder, same⟩
    exact (congrArg readBound (if_neg noEquals)).trans (finish rest')

/-- The characters with which a quantifier begins. -/
def quantifierChars : List Char :=
  ['*', '+', '?', '\x7b']

/-- A quantifier depends on what it takes, and there is none if no character of one follows. -/
theorem readGreedy_cases {quantifier : Option Quantifier}
    (h : readGreedy cs = .ok (quantifier, rest)) :
    (quantifier = none ∧ cs = rest ∧ ∀ c, cs.head? = some c → c ∉ quantifierChars) ∨
      ∃ c used, c ∈ quantifierChars ∧ Plain used ∧ cs = c :: used ++ rest ∧
        quantifier.isSome = true ∧
        ∀ rest', readGreedy (c :: used ++ rest') = .ok (quantifier, rest') := by
  unfold readGreedy at h
  split at h
  · cases h
    exact .inr ⟨'*', [], by decide, .nil, rfl, rfl, fun _ => rfl⟩
  · cases h
    exact .inr ⟨'+', [], by decide, .nil, rfl, rfl, fun _ => rfl⟩
  · cases h
    exact .inr ⟨'?', [], by decide, .nil, rfl, rfl, fun _ => rfl⟩
  · obtain ⟨⟨q, left⟩, read, h⟩ := bind_eq_ok.1 h
    cases h
    obtain ⟨used, plain, rfl, reads⟩ := readBraces_append read
    refine .inr ⟨'\x7b', used, by decide, plain, rfl, rfl, fun rest' => ?_⟩
    exact bind_eq_ok.2 ⟨_, reads rest', rfl⟩
  · next star plus question brace =>
    cases h
    refine .inl ⟨rfl, rfl, fun c head mem => ?_⟩
    obtain ⟨tail, rfl⟩ : ∃ tail, cs = c :: tail := ⟨_, (List.cons_head?_tail head).symm⟩
    fin_cases mem
    · exact star tail rfl
    · exact plus tail rfl
    · exact question tail rfl
    · exact brace tail rfl

/-- No quantifier is read where none begins. -/
theorem readQuantifier_of_none (none : ∀ c, cs.head? = some c → c ∉ quantifierChars) :
    readQuantifier cs = .ok (.none, cs) := by
  have greedy : readGreedy cs = .ok (.none, cs) := by
    unfold readGreedy
    split
    · exact absurd (none _ rfl) (by decide)
    · exact absurd (none _ rfl) (by decide)
    · exact absurd (none _ rfl) (by decide)
    · exact absurd (none _ rfl) (by decide)
    · rfl
  exact bind_eq_ok.2 ⟨_, greedy, rfl⟩

/-- **A quantifier** is missing, or it is read off the front of its text unless a question mark
follows. -/
theorem readQuantifier_cases {quantifier : Option Quantifier}
    (h : readQuantifier cs = .ok (quantifier, rest)) :
    (quantifier = none ∧ cs = rest ∧ ∀ c, cs.head? = some c → c ∉ quantifierChars) ∨
      ∃ c used, c ∈ quantifierChars ∧ Plain used ∧ cs = c :: used ++ rest ∧
        rest.head? ≠ some '?' ∧ ∀ rest', rest'.head? ≠ some '?' →
          readQuantifier (c :: used ++ rest') = .ok (quantifier, rest') := by
  obtain ⟨⟨q, left⟩, read, h⟩ := bind_eq_ok.1 h
  dsimp only at h
  split at h
  · cases h
  next greedy =>
  cases h
  obtain none | ⟨c, used, mem, plain, eq, some, reads⟩ := readGreedy_cases read
  · exact .inl none
  · refine .inr ⟨c, used, mem, plain, eq, fun lazy => greedy ⟨some, lazy⟩, fun rest' stops => ?_⟩
    refine bind_eq_ok.2 ⟨_, reads rest', ?_⟩
    exact if_neg fun lazy => stops lazy.2

/-- Without a quantifier nothing is read. -/
theorem eq_of_readQuantifier_none (h : readQuantifier cs = .ok (none, rest)) : cs = rest := by
  obtain ⟨⟨q, left⟩, read, h⟩ := bind_eq_ok.1 h
  dsimp only at h
  split at h
  · cases h
  · cases h
    obtain ⟨-, eq, -⟩ | ⟨c, used, -, -, -, ⟨⟩, -⟩ := readGreedy_cases read
    exact eq

/-! ## Markers -/

/-- A marker is a backslash with the letter behind it. -/
theorem atMarker_iff : atMarker cs = true ↔ ∃ rest, cs = '\\' :: 'i' :: rest := by
  unfold atMarker
  split
  · next rest => exact iff_of_true rfl ⟨rest, rfl⟩
  · next other =>
    refine iff_of_false Bool.false_ne_true ?_
    rintro ⟨rest, rfl⟩
    exact other rest rfl

theorem atMarker_eq_false_iff : atMarker cs = false ↔ ∀ rest, cs ≠ '\\' :: 'i' :: rest := by
  rw [Bool.eq_false_iff, Ne, atMarker_iff, not_exists]

/-- A marker with a quantifier behind it. -/
theorem atQuantifierMarker_iff : atQuantifierMarker cs = true ↔
    ∃ c rest, cs = '\\' :: 'i' :: c :: rest ∧ c ∈ quantifierChars := by
  unfold atQuantifierMarker
  split
  · next c rest =>
    rw [decide_eq_true_iff]
    constructor
    · intro mem
      exact ⟨c, rest, rfl, mem⟩
    · rintro ⟨_, _, ⟨⟩, mem⟩
      exact mem
  · next other =>
    refine iff_of_false Bool.false_ne_true ?_
    rintro ⟨c, rest, rfl, -⟩
    exact other c rest rfl

/-- A marker with the end of a branch behind it. -/
theorem atClosingMarker_iff : atClosingMarker cs = true ↔
    ∃ rest, cs = '\\' :: 'i' :: rest ∧ ∀ c, rest.head? = some c → c ∈ ['|', ')'] := by
  unfold atClosingMarker
  split
  · next rest =>
    rw [Option.all_eq_true]
    constructor
    · intro ends
      exact ⟨rest, rfl, fun c head => of_decide_eq_true (ends c head)⟩
    · rintro ⟨_, ⟨⟩, ends⟩ c head
      exact decide_eq_true (ends c head)
  · next other =>
    refine iff_of_false Bool.false_ne_true ?_
    rintro ⟨rest, rfl, -⟩
    exact other rest rfl

end PatternSampler.Reading
