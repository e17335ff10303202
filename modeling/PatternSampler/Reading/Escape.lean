/-
# Escapes

What a backslash and the characters after it stand for.  All readers here start behind the
backslash.

* `readCodePoint` reads a character given by its number.
* `readEscape` reads an escape that stands alone.
-/
import PatternSampler.CharSet.Basic
import PatternSampler.Reading.Numeral
import PatternSampler.Text.Alphanumeric

namespace PatternSampler.Reading

/-- Whether a character is one of the 32 punctuation characters of ASCII. -/
def isPunctuation (c : Char) : Bool :=
  ('!' ≤ c && c ≤ '/') || (':' ≤ c && c ≤ '@') || ('[' ≤ c && c ≤ '\x60') || ('\x7b' ≤ c && c ≤ '~')

/-- The character that a single character behind a backslash stands for: a control character for
some letters, and itself for punctuation and the space. -/
def escapedChar? (c : Char) : Option Char :=
  match c with
  | 'n' => some '\n'
  | 'r' => some '\r'
  | 't' => some '\t'
  | 'f' => some '\x0C'
  | 'v' => some '\x0B'
  | 'a' => some '\x07'
  | 'e' => some '\x1B'
  | c => if isPunctuation c ∨ c = ' ' then some c else none

/-- The number that the digits of an escape spell: two or four hexadecimal digits, a zero with up to
two octal digits, or a decimal number. -/
def readCodeNumber : List Char → Except Fault (Nat × List Char)
  | 'x' :: rest => readHex 2 rest
  | 'u' :: rest => readHex 4 rest
  | '0' :: rest => .ok (readOctal rest)
  | cs => do
    let (value, rest) ← readDecimal cs
    if value < UInt32.size then .ok (value, rest) else .error (fault cs (.codePointTooLarge value))

/-- Reads a character given by its number. -/
def readCodePoint (cs : List Char) : Except Fault (Char × List Char) := do
  let (value, rest) ← readCodeNumber cs
  if value.isValidChar then .ok (Char.ofNat value, rest)
  else .error (fault cs (.codePointInvalid value))

/-- Reads a group name in angle brackets or single quotes. -/
def readGroupName (cs : List Char) : Except Fault (String × List Char) :=
  match cs with
  | '<' :: rest => body '>' rest
  | '\'' :: rest => body '\'' rest
  | _ => .error (fault (cs.drop 1) .groupNameUnopened)
where
  /-- Reads a name and the character that closes it. -/
  body (close : Char) (cs : List Char) : Except Fault (String × List Char) :=
    if cs.head?.any fun c => c.isAlpha || c == '_' then
      let name := cs.takeWhile fun c => isAlphanumeric c || c == '_'
      match cs.dropWhile fun c => isAlphanumeric c || c == '_' with
      | [] => .error (fault [] (.expected close none))
      | c :: rest =>
        if c = close then .ok (String.ofList name, rest)
        else .error (fault (c :: rest) (.expected close (some c)))
    else .error (fault cs .groupNameInvalid)

/-- What an escape outside of a set stands for. -/
inductive Escape where
  | char (c : Char)
  | shorthand (kind : Shorthand)
  | anchor
  | backrefNumber (number : Nat)
  | backrefName (name : String)

/-- Reads an escape outside of a set. -/
def readEscape (cs : List Char) : Except Fault (Escape × List Char) :=
  match cs with
  | [] => .error (fault [] .escapeUnfinished)
  | c :: rest =>
    match Shorthand.ofLetter? c with
    | some kind => .ok (.shorthand kind, rest)
    | none =>
      if c = 'x' ∨ c = 'u' ∨ c = '0' then do
        let (value, rest) ← readCodePoint cs
        .ok (.char value, rest)
      else if c.isDigit then do
        let (number, rest) ← readDecimal cs
        .ok (.backrefNumber number, rest)
      else if c = 'k' then do
        let (name, rest) ← readGroupName rest
        .ok (.backrefName name, rest)
      else if c = 'A' ∨ c = 'Z' ∨ c = 'z' then .ok (.anchor, rest)
      else if c = 'i' then .error (fault cs .markerMisplaced)
      else if c = 'b' ∨ c = 'B' then .error (fault cs .wordBoundary)
      else
        match escapedChar? c with
        | some value => .ok (.char value, rest)
        | none => .error (fault cs (.escapeUnknown c))

/-! ## What is left is shorter -/

theorem readCodeNumber_length {c : Char} {cs rest : List Char} {n : Nat}
    (start : c = 'x' ∨ c = 'u' ∨ c.isDigit) (h : readCodeNumber (c :: cs) = .ok (n, rest)) :
    rest.length ≤ cs.length := by
  unfold readCodeNumber at h
  split at h
  · next eq =>
    cases eq
    have := readHexFrom_length h
    omega
  · next eq =>
    cases eq
    have := readHexFrom_length h
    omega
  · next eq =>
    cases eq
    have := length_readOctal cs
    cases h
    exact this
  · next notHex notWide _ =>
    obtain ⟨⟨value, left⟩, read, h⟩ := bind_eq_ok.1 h
    have digit : c.isDigit := by
      rcases start with rfl | rfl | digit
      · exact absurd rfl (notHex _)
      · exact absurd rfl (notWide _)
      · exact digit
    dsimp only at h
    split at h
    · cases h
      exact readDecimal_length digit read
    · cases h

theorem readCodePoint_length {c value : Char} {cs rest : List Char}
    (start : c = 'x' ∨ c = 'u' ∨ c.isDigit) (h : readCodePoint (c :: cs) = .ok (value, rest)) :
    rest.length ≤ cs.length := by
  obtain ⟨⟨n, left⟩, read, h⟩ := bind_eq_ok.1 h
  dsimp only at h
  split at h
  · cases h
    exact readCodeNumber_length start read
  · cases h

theorem readGroupName_body_length {close : Char} {cs rest : List Char} {name : String}
    (h : readGroupName.body close cs = .ok (name, rest)) : rest.length < cs.length := by
  unfold readGroupName.body at h
  split at h
  · dsimp only at h
    split at h
    · cases h
    · next c left eq =>
      split at h
      · cases h
        have := (List.dropWhile_suffix (l := cs) fun c => isAlphanumeric c || c == '_').length_le
        rw [eq] at this
        exact this
      · cases h
  · cases h

theorem readGroupName_length {cs rest : List Char} {name : String}
    (h : readGroupName cs = .ok (name, rest)) : rest.length < cs.length := by
  unfold readGroupName at h
  split at h
  · have := readGroupName_body_length h
    simp only [List.length_cons]
    omega
  · have := readGroupName_body_length h
    simp only [List.length_cons]
    omega
  · cases h

theorem readEscape_length {cs rest : List Char} {escape : Escape}
    (h : readEscape cs = .ok (escape, rest)) : rest.length < cs.length := by
  unfold readEscape at h
  split at h
  · cases h
  · next c cs =>
    simp only [List.length_cons, Nat.lt_succ_iff]
    split at h
    · cases h
      exact Nat.le_refl _
    split at h
    · next start =>
      obtain ⟨⟨value, left⟩, read, h⟩ := bind_eq_ok.1 h
      cases h
      refine readCodePoint_length ?_ read
      rcases start with rfl | rfl | rfl <;> decide
    split at h
    · next digit =>
      obtain ⟨⟨number, left⟩, read, h⟩ := bind_eq_ok.1 h
      cases h
      exact readDecimal_length digit read
    split at h
    · obtain ⟨⟨name, left⟩, read, h⟩ := bind_eq_ok.1 h
      cases h
      exact Nat.le_of_lt (readGroupName_length read)
    split at h
    · cases h
      exact Nat.le_refl _
    split at h
    · cases h
    split at h
    · cases h
    split at h
    · cases h
      exact Nat.le_refl _
    · cases h

end PatternSampler.Reading
