/-
# How far readers look

A reader takes the front of a text and leaves the rest.  What it makes of the front hardly depends
on the rest: digits must not run on behind a numeral, plain characters must not run on behind plain
ones, and a question mark must not follow a quantifier.  Everything else may be put in place of the
rest.

* `Follows` : one text may take the place of another one behind a numeral.
* `ReadsOff` : a reader takes the front of a text, and does so whatever follows it.
* `Reading.readCodePoint_readsOff`, `Reading.readGroupName_append`,
  `Reading.readEscape_cons_readsOff` : what follows a backslash.
-/
import PatternSampler.Proofs.Reading.Regular
import PatternSampler.Reading.Pattern

namespace PatternSampler.Reading

variable {α β : Type} {cs rest used : List Char}

/-- One text may take the place of another one behind a numeral: it begins in the same way or, at
least, with no digit. -/
def Follows (rest rest' : List Char) : Prop :=
  rest'.head? = rest.head? ∨ ∀ c, rest'.head? = some c → c.isDigit = false

/-- A reader takes `used` from the front of a text, and does so whatever follows it; if that is a
numeral, digits must not run on. -/
structure ReadsOff (numeral : Prop) (f : List Char → Except Fault (α × List Char))
    (cs used : List Char) (a : α) (rest : List Char) : Prop where
  split : cs = used ++ rest
  reads : ∀ rest', (numeral → Follows rest rest') → f (used ++ rest') = .ok (a, rest')

/-- A text without backslashes and brackets. -/
def Plain (chars : List Char) : Prop :=
  ∀ c ∈ chars, c ≠ '\\' ∧ c ≠ '[' ∧ c ≠ ']'

theorem Plain.nil : Plain [] :=
  fun _ h => absurd h List.not_mem_nil

theorem Plain.cons {c : Char} {chars : List Char} (here : c ≠ '\\' ∧ c ≠ '[' ∧ c ≠ ']')
    (more : Plain chars) : Plain (c :: chars) :=
  List.forall_mem_cons.2 ⟨here, more⟩

theorem Plain.append {chars chars' : List Char} (first : Plain chars) (second : Plain chars') :
    Plain (chars ++ chars') :=
  List.forall_mem_append.2 ⟨first, second⟩

/-- Digits and letters are neither backslashes nor brackets. -/
theorem ne_of_test {test : Char → Bool} (backslash : test '\\' = false) (opening : test '[' = false)
    (closing : test ']' = false) {c : Char} (h : test c = true) : c ≠ '\\' ∧ c ≠ '[' ∧ c ≠ ']' := by
  refine ⟨?_, ?_, ?_⟩
  · rintro rfl
    exact Bool.false_ne_true (backslash.symm.trans h)
  · rintro rfl
    exact Bool.false_ne_true (opening.symm.trans h)
  · rintro rfl
    exact Bool.false_ne_true (closing.symm.trans h)

/-- What is taken off by a test that these characters fail has none of them. -/
theorem plain_takeWhile {test : Char → Bool} (backslash : test '\\' = false)
    (opening : test '[' = false) (closing : test ']' = false) (cs : List Char) :
    Plain (cs.takeWhile test) :=
  fun _ h => ne_of_test backslash opening closing (List.mem_takeWhile_imp h)

theorem isOctalDigit_isDigit {c : Char} (h : isOctalDigit c = true) : c.isDigit = true := by
  simp only [isOctalDigit, Bool.and_eq_true, decide_eq_true_eq] at h
  simp only [Char.isDigit, Bool.and_eq_true, decide_eq_true_eq]
  refine ⟨h.1, ?_⟩
  have le : c.val.toNat ≤ 55 := h.2
  show c.val.toNat ≤ 57
  omega

/-- Texts that begin in the same way still do so behind something else. -/
theorem head?_append_congr (used : List Char) {rest rest' : List Char}
    (same : rest'.head? = rest.head?) : (used ++ rest').head? = (used ++ rest).head? := by
  rw [List.head?_append, List.head?_append, same]

/-! ## Runs of characters -/

/-- A text that does not go on with characters of some kind. -/
def Stops (test : Char → Bool) (rest : List Char) : Prop :=
  ∀ c, rest.head? = some c → test c = false

theorem stops_dropWhile (test : Char → Bool) (cs : List Char) : Stops test (cs.dropWhile test) := by
  intro c head
  have h := List.head?_dropWhile_not test cs
  rw [head] at h
  simpa using h

theorem takeWhile_append {test : Char → Bool} {used rest : List Char}
    (all : ∀ c ∈ used, test c = true) (stops : Stops test rest) :
    (used ++ rest).takeWhile test = used := by
  rw [List.takeWhile_append_of_pos all]
  cases rest with
  | nil => rw [List.takeWhile_nil, List.append_nil]
  | cons c rest =>
    rw [List.takeWhile_cons_of_neg (by simp [stops c rfl]), List.append_nil]

theorem dropWhile_append {test : Char → Bool} {used rest : List Char}
    (all : ∀ c ∈ used, test c = true) (stops : Stops test rest) :
    (used ++ rest).dropWhile test = rest := by
  rw [List.dropWhile_append_of_pos all]
  cases rest with
  | nil => rfl
  | cons c rest => rw [List.dropWhile_cons_of_neg (by simp [stops c rfl])]

/-- Digits that stop still stop if something else follows. -/
theorem Stops.of_follows {test : Char → Bool} (digits : ∀ c, test c = true → c.isDigit = true)
    {rest' : List Char} (stops : Stops test rest) (follows : Follows rest rest') :
    Stops test rest' := by
  intro c head
  rcases follows with same | noDigit
  · exact stops c (same ▸ head)
  · by_contra digit
    have := digits c (by simpa using digit)
    rw [noDigit c head] at this
    cases this

/-! ## Numerals -/

/-- Decimal digits spell the number that they spell in positional notation. -/
theorem numberOf_eq_ofDigitChars {digits : List Char} (all : ∀ c ∈ digits, c.isDigit = true) :
    numberOf 10 digits = Nat.ofDigitChars 10 digits 0 := by
  have value {cs : List Char} (all : ∀ c ∈ cs, c.isDigit = true) (start : ℕ) :
      cs.foldl (fun n c => n * 10 + digitValue c) start = Nat.ofDigitChars 10 cs start := by
    induction cs generalizing start with
    | nil => rfl
    | cons c cs ih =>
      have digit : digitValue c = c.toNat - '0'.toNat := if_pos (all c List.mem_cons_self)
      rw [List.foldl_cons, ih fun d mem => all d (List.mem_cons_of_mem c mem), digit,
        Nat.mul_comm]
      rfl
  exact value all 0

/-- A decimal number takes all digits. -/
theorem readDecimal_eq_ok_iff {n : ℕ} : readDecimal cs = .ok (n, rest) ↔
    numberOf 10 (cs.takeWhile Char.isDigit) ≤ wordMax ∧
      n = numberOf 10 (cs.takeWhile Char.isDigit) ∧ rest = cs.dropWhile Char.isDigit := by
  show (if numberOf 10 (cs.takeWhile Char.isDigit) ≤ wordMax then _ else _) = _ ↔ _
  constructor
  · intro h
    split at h
    · next small =>
      cases h
      exact ⟨small, rfl, rfl⟩
    · cases h
  · rintro ⟨small, rfl, rfl⟩
    rw [if_pos small]

/-- A decimal number depends on its digits and on that no other one follows. -/
theorem readDecimal_readsOff {n : ℕ} (h : readDecimal cs = .ok (n, rest)) :
    ReadsOff True readDecimal cs (cs.takeWhile Char.isDigit) n rest := by
  obtain ⟨small, rfl, rfl⟩ := readDecimal_eq_ok_iff.1 h
  refine ⟨(List.takeWhile_append_dropWhile).symm, fun rest' follows => ?_⟩
  have all : ∀ c ∈ cs.takeWhile Char.isDigit, c.isDigit = true :=
    fun _ mem => List.mem_takeWhile_imp mem
  have stops : Stops Char.isDigit rest' :=
    (stops_dropWhile _ _).of_follows (fun _ h => h) (follows trivial)
  rw [readDecimal_eq_ok_iff, takeWhile_append all stops, dropWhile_append all stops]
  exact ⟨small, rfl, rfl⟩

/-- A hexadecimal number depends on its digits alone. -/
theorem readHexFrom_readsOff {wanted left value n : ℕ}
    (h : readHexFrom wanted left value cs = .ok (n, rest)) :
    ∃ used, Plain used ∧ ReadsOff False (readHexFrom wanted left value) cs used n rest := by
  induction left generalizing value cs with
  | zero =>
    cases h
    exact ⟨[], .nil, rfl, fun _ _ => rfl⟩
  | succ left ih =>
    cases cs with
    | nil => cases h
    | cons c cs =>
      simp only [readHexFrom] at h
      split at h
      · next digit =>
        obtain ⟨used, plain, rfl, reads⟩ := ih h
        refine ⟨c :: used, plain.cons (ne_of_test (by decide) (by decide) (by decide) digit), rfl,
          fun rest' follows => ?_⟩
        rw [List.cons_append, readHexFrom, if_pos digit]
        exact reads rest' follows
      · cases h

/-- The octal digits at the front of a text, two of them at most. -/
def octalRun (cs : List Char) : List Char :=
  (cs.take 2).takeWhile isOctalDigit

theorem plain_octalRun (cs : List Char) : Plain (octalRun cs) :=
  plain_takeWhile (by decide) (by decide) (by decide) _

/-- An octal number takes as many octal digits as it may. -/
theorem readOctal_eq (cs : List Char) :
    readOctal cs = (numberOf 8 (octalRun cs), cs.drop (octalRun cs).length) :=
  rfl

/-- Octal digits do not run on if there are two of them or what follows is none. -/
theorem octalRun_append {rest' : List Char}
    (follows : Follows (cs.drop (octalRun cs).length) rest') :
    octalRun (octalRun cs ++ rest') = octalRun cs := by
  have none {rest : List Char} (stops : Stops isOctalDigit rest) (follows : Follows rest rest')
      (count : ℕ) : (rest'.take count).takeWhile isOctalDigit = [] := by
    have stops' := stops.of_follows (fun _ => isOctalDigit_isDigit) follows
    cases rest' with
    | nil => simp
    | cons c rest' =>
      cases count with
      | zero => rfl
      | succ count => simp [stops' c rfl]
  match cs with
  | [] => exact none (fun c h => by cases h) follows 2
  | c :: cs =>
    by_cases first : isOctalDigit c = true
    · match cs with
      | [] =>
        have stops : Stops isOctalDigit [] := fun c h => by cases h
        have follows : Follows [] rest' := by simpa [octalRun, first] using follows
        simpa [octalRun, first] using none stops follows 1
      | d :: cs =>
        by_cases second : isOctalDigit d = true
        · simp [octalRun, first, second]
        · have stops : Stops isOctalDigit (d :: cs) := by
            rintro _ ⟨⟩
            simpa using second
          have follows : Follows (d :: cs) rest' := by simpa [octalRun, first, second] using follows
          simpa [octalRun, first, second] using none stops follows 1
    · have stops : Stops isOctalDigit (c :: cs) := by
        rintro _ ⟨⟩
        simpa using first
      have follows : Follows (c :: cs) rest' := by simpa [octalRun, first] using follows
      simpa [octalRun, first] using none stops follows 2

/-- An octal number ends after two digits or where there are no more. -/
theorem readOctal_append (cs : List Char) : cs = octalRun cs ++ (readOctal cs).2 ∧
    ∀ rest', Follows (readOctal cs).2 rest' →
      readOctal (octalRun cs ++ rest') = ((readOctal cs).1, rest') := by
  refine ⟨List.prefix_append_drop ?_, fun rest' follows => ?_⟩
  · exact (List.takeWhile_prefix _).trans (List.take_prefix 2 cs)
  · rw [readOctal_eq, octalRun_append follows, List.drop_left]
    rfl

/-! ## Escapes -/

/-- The digits that belong to a number behind a backslash if its first digit is given: two octal
ones behind a zero, all digits otherwise. -/
def numberTail (c : Char) (cs : List Char) : List Char :=
  if c = '0' then octalRun cs else cs.takeWhile Char.isDigit

/-- Behind its first digit a decimal number takes the other ones. -/
theorem readDecimal_cons_readsOff {c : Char} {n : ℕ} (digit : c.isDigit = true)
    (h : readDecimal (c :: cs) = .ok (n, rest)) :
    ReadsOff True (fun cs => readDecimal (c :: cs)) cs (cs.takeWhile Char.isDigit) n rest := by
  obtain ⟨split, reads⟩ := readDecimal_readsOff h
  rw [List.takeWhile_cons_of_pos digit] at split reads
  exact ⟨(List.cons.inj split).2, reads⟩

theorem plain_digits (cs : List Char) : Plain (cs.takeWhile Char.isDigit) :=
  plain_takeWhile (by decide) (by decide) (by decide) cs

theorem plain_numberTail (c : Char) (cs : List Char) : Plain (numberTail c cs) := by
  unfold numberTail
  split
  · exact plain_octalRun cs
  · exact plain_digits cs

/-- The number behind a letter has a fixed number of digits. -/
theorem readCodeNumber_hex {c : Char} {n : ℕ} (letter : c = 'x' ∨ c = 'u')
    (h : readCodeNumber (c :: cs) = .ok (n, rest)) :
    ∃ used, Plain used ∧ ReadsOff False (fun cs => readCodeNumber (c :: cs)) cs used n rest := by
  rcases letter with rfl | rfl
  · exact readHexFrom_readsOff h
  · exact readHexFrom_readsOff h

/-- A number that begins with a digit depends on its digits and on what follows them. -/
theorem readCodeNumber_digits {c : Char} {n : ℕ} (digit : c.isDigit = true)
    (h : readCodeNumber (c :: cs) = .ok (n, rest)) :
    ReadsOff True (fun cs => readCodeNumber (c :: cs)) cs (numberTail c cs) n rest := by
  unfold numberTail
  by_cases octal : c = '0'
  · subst octal
    obtain ⟨split, reads⟩ := readOctal_append cs
    cases h
    rw [if_pos rfl]
    exact ⟨split, fun rest' follows => congrArg Except.ok (reads rest' (follows trivial))⟩
  have ne {d : Char} (other : d.isDigit = false) : c ≠ d := by
    rintro rfl
    exact Bool.false_ne_true (other.symm.trans digit)
  have decimal (cs : List Char) : readCodeNumber (c :: cs) = _ :=
    readCodeNumber.eq_4 (c :: cs) (by simp [ne (d := 'x') rfl]) (by simp [ne (d := 'u') rfl])
      (by simp [octal])
  rw [decimal] at h
  rw [if_neg octal]
  obtain ⟨⟨value, left⟩, read, h⟩ := bind_eq_ok.1 h
  dsimp only at h
  split at h
  · next small =>
    cases h
    obtain ⟨split, reads⟩ := readDecimal_cons_readsOff digit read
    refine ⟨split, fun rest' follows => ?_⟩
    show readCodeNumber (c :: _) = _
    rw [decimal]
    refine bind_eq_ok.2 ⟨_, reads rest' follows, ?_⟩
    exact if_pos small
  · cases h

/-- A character given by its number is read off the front of a text. -/
theorem readCodePoint_readsOff {c value : Char} (start : c = 'x' ∨ c = 'u' ∨ c.isDigit = true)
    (h : readCodePoint (c :: cs) = .ok (value, rest)) :
    ∃ used, Plain used ∧ (c.isDigit = true → used = numberTail c cs) ∧
      ReadsOff (c.isDigit = true) (fun cs => readCodePoint (c :: cs)) cs used value rest := by
  obtain ⟨⟨n, left⟩, read, h⟩ := bind_eq_ok.1 h
  dsimp only at h
  split at h
  · next valid =>
    cases h
    by_cases digit : c.isDigit = true
    · obtain ⟨split, reads⟩ := readCodeNumber_digits digit read
      refine ⟨_, plain_numberTail c cs, fun _ => rfl, split, fun rest' follows => ?_⟩
      refine bind_eq_ok.2 ⟨_, reads rest' fun _ => follows digit, ?_⟩
      exact if_pos valid
    · have letter : c = 'x' ∨ c = 'u' := start.imp_right fun h => h.resolve_right digit
      obtain ⟨used, plain, split, reads⟩ := readCodeNumber_hex letter read
      refine ⟨used, plain, fun h => absurd h digit, split, fun rest' _ => ?_⟩
      refine bind_eq_ok.2 ⟨_, reads rest' False.elim, ?_⟩
      exact if_pos valid
  · cases h

/-- Whether a character may stand in a name behind its first one. -/
def isNameChar (c : Char) : Bool :=
  isAlphanumeric c || c == '_'

theorem isNameChar_eq_false {c : Char} (mem : c ∈ ['\\', '[', ']', '>', '\'']) :
    isNameChar c = false := by
  have none : (['\\', '[', ']', '>', '\''].all fun c => !isNameChar c) = true := by
    simp only [isNameChar, isAlphanumeric, ← Array.any_toList]
    decide +kernel
  simpa using List.all_eq_true.1 none c mem

/-- A name takes all characters that a name can have, and the one that closes it. -/
theorem readGroupName_body_eq_ok_iff {close : Char} {name : String} :
    readGroupName.body close cs = .ok (name, rest) ↔
      (cs.head?.any fun c => c.isAlpha || c == '_') = true ∧
        name = String.ofList (cs.takeWhile isNameChar) ∧
        cs.dropWhile isNameChar = close :: rest := by
  unfold readGroupName.body
  constructor
  · intro h
    split at h
    · next begins =>
      dsimp only at h
      split at h
      · cases h
      · next c left eq =>
        split at h
        · next closes =>
          subst closes
          cases h
          exact ⟨begins, rfl, eq⟩
        · cases h
    · cases h
  · rintro ⟨begins, rfl, eq⟩
    unfold isNameChar at eq ⊢
    rw [if_pos begins, eq]
    exact if_pos rfl

/-- A name depends on what it takes alone, since it is closed. -/
theorem readGroupName_body_append {close : Char} {name : String} (ends : close = '>' ∨ close = '\'')
    (h : readGroupName.body close cs = .ok (name, rest)) :
    ∃ used, Plain used ∧ cs = used ++ rest ∧
      ∀ rest', readGroupName.body close (used ++ rest') = .ok (name, rest') := by
  obtain ⟨begins, rfl, eq⟩ := readGroupName_body_eq_ok_iff.1 h
  have whole : cs.takeWhile isNameChar ++ cs.dropWhile isNameChar = cs :=
    List.takeWhile_append_dropWhile
  rw [eq] at whole
  refine ⟨cs.takeWhile isNameChar ++ [close], ?_, ?_, ?_⟩
  · apply Plain.append
    · apply plain_takeWhile <;> apply isNameChar_eq_false <;> decide
    · refine .cons ?_ .nil
      rcases ends with rfl | rfl <;> decide
  · rw [List.append_assoc, List.singleton_append, whole]
  · intro rest'
    have all : ∀ d ∈ cs.takeWhile isNameChar, isNameChar d = true :=
      fun _ mem => List.mem_takeWhile_imp mem
    have stops : Stops isNameChar (close :: rest') := by
      rintro _ ⟨⟩
      apply isNameChar_eq_false
      rcases ends with rfl | rfl <;> decide
    -- the name is not empty, since its end cannot begin one
    have head : (cs.takeWhile isNameChar ++ close :: rest').head? = cs.head? := by
      rcases name : cs.takeWhile isNameChar with - | ⟨d, ds⟩
      · rw [name, List.nil_append] at whole
        rw [← whole] at begins
        rcases ends with rfl | rfl <;> simp at begins
      · rw [name] at whole
        rw [← whole]
        rfl
    rw [List.append_assoc, List.singleton_append, readGroupName_body_eq_ok_iff, head,
      takeWhile_append all stops, dropWhile_append all stops]
    exact ⟨begins, rfl, rfl⟩

/-- A name with what surrounds it depends on what it takes alone. -/
theorem readGroupName_append {name : String} (h : readGroupName cs = .ok (name, rest)) :
    ∃ used, Plain used ∧ cs = used ++ rest ∧
      ∀ rest', readGroupName (used ++ rest') = .ok (name, rest') := by
  unfold readGroupName at h
  split at h
  · obtain ⟨used, plain, rfl, reads⟩ := readGroupName_body_append (.inl rfl) h
    exact ⟨'<' :: used, plain.cons (by decide), rfl, reads⟩
  · obtain ⟨used, plain, rfl, reads⟩ := readGroupName_body_append (.inr rfl) h
    exact ⟨'\'' :: used, plain.cons (by decide), rfl, reads⟩
  · cases h

/-- An escape that is neither a number nor a name is a single character. -/
theorem readEscape_single {c : Char} {escape : Escape} (coded : ¬(c = 'x' ∨ c = 'u' ∨ c = '0'))
    (digit : ¬c.isDigit = true) (named : c ≠ 'k')
    (h : readEscape (c :: cs) = .ok (escape, rest)) :
    cs = rest ∧ ∀ cs', readEscape (c :: cs') = .ok (escape, cs') := by
  unfold readEscape at h ⊢
  dsimp only at h ⊢
  split at h
  · cases h
    exact ⟨rfl, fun _ => rfl⟩
  rw [if_neg coded, if_neg digit, if_neg named] at h
  simp only [if_neg coded, if_neg digit, if_neg named]
  split at h
  · next anchor =>
    cases h
    exact ⟨rfl, fun _ => if_pos anchor⟩
  next anchor =>
  simp only [if_neg anchor]
  split at h
  · cases h
  next marker =>
  simp only [if_neg marker]
  split at h
  · cases h
  next boundary =>
  simp only [if_neg boundary]
  split at h
  · cases h
    exact ⟨rfl, fun _ => rfl⟩
  · cases h

theorem ofLetter?_of_isDigit {c : Char} (digit : c.isDigit = true) :
    Shorthand.ofLetter? c = none := by
  unfold Shorthand.ofLetter?
  split
  iterate 6 exact absurd digit (by decide)
  rfl

/-! ### Punctuation -/

variable {c : Char}

theorem ofLetter?_of_isPunctuation (special : isPunctuation c = true) :
    Shorthand.ofLetter? c = none := by
  unfold Shorthand.ofLetter?
  split
  iterate 6 exact absurd special (by decide)
  rfl

theorem not_isDigit_of_isPunctuation (special : isPunctuation c = true) : ¬c.isDigit = true := by
  intro digit
  obtain ⟨low, high⟩ : '0' ≤ c ∧ c ≤ '9' := by simpa [Char.isDigit, Char.le_def] using digit
  simp only [isPunctuation, Bool.or_eq_true, Bool.and_eq_true, decide_eq_true_eq] at special
  simp only [Char.le_def, UInt32.le_iff_toNat_le] at special low high
  have values : ('0'.val.toNat = 48 ∧ '9'.val.toNat = 57 ∧ '!'.val.toNat = 33 ∧
      '/'.val.toNat = 47 ∧ ':'.val.toNat = 58 ∧ '['.val.toNat = 91) := by decide
  have values' : '\x7b'.val.toNat = 123 := by decide
  omega

/-- Behind a backslash punctuation stands for itself. -/
theorem escapedChar?_of_isPunctuation (special : isPunctuation c = true) :
    escapedChar? c = some c := by
  unfold escapedChar?
  split <;> first | exact absurd special (by decide) | exact if_pos (.inl special)

theorem ne_of_isPunctuation {d : Char} (special : isPunctuation c = true)
    (plain : isPunctuation d = false) : c ≠ d := by
  rintro rfl
  exact Bool.false_ne_true (plain.symm.trans special)

/-! ### Escapes -/

/-- **What follows a backslash** is read off the front of a text behind its first character. -/
theorem readEscape_cons_readsOff {escape : Escape}
    (h : readEscape (c :: cs) = .ok (escape, rest)) :
    ∃ used, Plain used ∧ (c.isDigit = true → used = numberTail c cs) ∧
      ReadsOff (c.isDigit = true) (fun cs => readEscape (c :: cs)) cs used escape rest := by
  have unfolded (cs : List Char) : readEscape (c :: cs) = _ := readEscape.eq_2 c cs
  rcases letter : Shorthand.ofLetter? c with - | kind
  · simp only [letter] at unfolded
    by_cases coded : c = 'x' ∨ c = 'u' ∨ c = '0'
    · simp only [if_pos coded] at unfolded
      rw [unfolded] at h
      obtain ⟨⟨value, left⟩, read, same⟩ := bind_eq_ok.1 h
      cases same
      have start : c = 'x' ∨ c = 'u' ∨ c.isDigit = true := by
        rcases coded with rfl | rfl | rfl <;> decide
      obtain ⟨used, plain, number, split, reads⟩ := readCodePoint_readsOff start read
      refine ⟨used, plain, number, split, fun rest' follows => ?_⟩
      exact (unfolded _).trans (bind_eq_ok.2 ⟨_, reads rest' follows, rfl⟩)
    by_cases digit : c.isDigit = true
    · simp only [if_neg coded, if_pos digit] at unfolded
      rw [unfolded] at h
      obtain ⟨⟨number, left⟩, read, same⟩ := bind_eq_ok.1 h
      cases same
      obtain ⟨split, reads⟩ := readDecimal_cons_readsOff digit read
      have octal : c ≠ '0' := fun eq => coded (.inr (.inr eq))
      refine ⟨_, plain_digits cs, fun _ => (if_neg octal).symm, split, fun rest' follows => ?_⟩
      exact (unfolded _).trans (bind_eq_ok.2 ⟨_, reads rest' fun _ => follows digit, rfl⟩)
    by_cases named : c = 'k'
    · simp only [if_neg coded, if_neg digit, if_pos named] at unfolded
      rw [unfolded] at h
      obtain ⟨⟨name, left⟩, read, same⟩ := bind_eq_ok.1 h
      cases same
      obtain ⟨used, plain, split, reads⟩ := readGroupName_append read
      refine ⟨used, plain, fun h => absurd h digit, split, fun rest' _ => ?_⟩
      exact (unfolded _).trans (bind_eq_ok.2 ⟨_, reads rest', rfl⟩)
    · obtain ⟨split, reads⟩ := readEscape_single coded digit named h
      exact ⟨[], .nil, fun h => absurd h digit, split, fun rest' _ => reads rest'⟩
  · simp only [letter] at unfolded
    rw [unfolded] at h
    cases h
    refine ⟨[], .nil, fun digit => ?_, rfl, fun rest' _ => unfolded rest'⟩
    rw [ofLetter?_of_isDigit digit] at letter
    cases letter

end PatternSampler.Reading
