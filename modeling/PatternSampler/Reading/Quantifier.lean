/-
# Quantifiers

How often a part is repeated, as it is written behind the part: a star, a plus, a question mark, or
bounds in braces.
-/
import PatternSampler.Reading.Numeral
import PatternSampler.Tree.Basic

namespace PatternSampler.Reading

/-- The largest bound that is accepted in braces. -/
def maxBound : Nat := 100000

/-- The bounds of a repeated part, and whether all its occurrences have one and the same text. -/
structure Quantifier where
  /-- How often the part occurs. -/
  bounds : Bounds
  /-- Whether one text is repeated. -/
  sameText : Bool := false
deriving DecidableEq

/-- Reads one bound. -/
def readBound (cs : List Char) : Except Fault (Nat × List Char) :=
  let (digits, rest) := decimalRun cs
  let value := numberOf 10 digits
  if digits.isEmpty then .error (fault cs .boundMissing)
  else if wordMax < value then .error (fault cs (.boundOverflow (String.ofList digits)))
  else if maxBound < value then .error (fault cs (.boundTooLarge value maxBound))
  else .ok (value, rest)

/-- Reads what follows the least number: nothing, a comma, or a comma and the greatest number. -/
def readMost (least : Nat) (cs : List Char) : Except Fault (Option Nat × List Char) :=
  match cs with
  | ',' :: '}' :: rest => .ok (none, '}' :: rest)
  | ',' :: rest => do
    let (most, rest) ← readBound rest
    .ok (some most, rest)
  | _ => .ok (some least, cs)

/-- Reads the inside of braces and the closing brace. -/
def readBraces (cs : List Char) : Except Fault (Quantifier × List Char) := do
  let sameText := cs.head? == some '='
  let (least, rest) ← readBound (if sameText then cs.drop 1 else cs)
  let (most, rest) ← readMost least rest
  match rest with
  | [] => .error (fault [] (.expected '}' none))
  | c :: rest =>
    if c ≠ '}' then .error (fault (c :: rest) (.expected '}' (some c)))
    else if most.any (· < least) then .error (fault rest .boundsReversed)
    else .ok ({ bounds := { least, most }, sameText }, rest)

/-- Reads a quantifier, if there is one, without regard to what follows it. -/
def readGreedy (cs : List Char) : Except Fault (Option Quantifier × List Char) :=
  match cs with
  | '*' :: rest => .ok (some { bounds := { least := 0, most := none } }, rest)
  | '+' :: rest => .ok (some { bounds := { least := 1, most := none } }, rest)
  | '?' :: rest => .ok (some { bounds := { least := 0, most := some 1 } }, rest)
  | '{' :: rest => do
    let (quantifier, rest) ← readBraces rest
    .ok (some quantifier, rest)
  | _ => .ok (none, cs)

/-- Reads a quantifier, if there is one.  None may be followed by a question mark. -/
def readQuantifier (cs : List Char) : Except Fault (Option Quantifier × List Char) := do
  let (quantifier, rest) ← readGreedy cs
  if quantifier.isSome ∧ rest.head? = some '?' then .error (fault rest .lazyQuantifier)
  else .ok (quantifier, rest)

/-! ## What is left is no longer -/

theorem readBound_length {cs rest : List Char} {n : Nat} (h : readBound cs = .ok (n, rest)) :
    rest.length ≤ cs.length := by
  simp only [readBound] at h
  split at h
  · cases h
  split at h
  · cases h
  split at h
  · cases h
  cases h
  exact length_decimalRun cs

theorem readMost_length {least : Nat} {cs rest : List Char} {most : Option Nat}
    (h : readMost least cs = .ok (most, rest)) : rest.length ≤ cs.length := by
  unfold readMost at h
  split at h
  · cases h
    simp
  · obtain ⟨⟨n, left⟩, read, h⟩ := bind_eq_ok.1 h
    cases h
    have := readBound_length read
    simp only [List.length_cons]
    omega
  · cases h
    simp

theorem readBraces_length {cs rest : List Char} {quantifier : Quantifier}
    (h : readBraces cs = .ok (quantifier, rest)) : rest.length < cs.length := by
  obtain ⟨⟨least, afterLeast⟩, readLeast, h⟩ := bind_eq_ok.1 h
  obtain ⟨⟨most, afterMost⟩, readMost, h⟩ := bind_eq_ok.1 h
  have fromLeast := readBound_length readLeast
  have fromMost := readMost_length readMost
  have : (if cs.head? == some '=' then cs.drop 1 else cs).length ≤ cs.length := by
    split <;> simp
  dsimp only at h
  split at h
  · cases h
  split at h
  · cases h
  split at h
  · cases h
  cases h
  simp only [List.length_cons] at fromMost
  omega

theorem readGreedy_length {cs rest : List Char} {quantifier : Option Quantifier}
    (h : readGreedy cs = .ok (quantifier, rest)) : rest.length ≤ cs.length := by
  unfold readGreedy at h
  split at h
  · cases h
    simp
  · cases h
    simp
  · cases h
    simp
  · obtain ⟨⟨q, left⟩, read, h⟩ := bind_eq_ok.1 h
    cases h
    have := readBraces_length read
    simp only [List.length_cons]
    omega
  · cases h
    simp

theorem readQuantifier_length {cs rest : List Char} {quantifier : Option Quantifier}
    (h : readQuantifier cs = .ok (quantifier, rest)) : rest.length ≤ cs.length := by
  obtain ⟨⟨q, left⟩, read, h⟩ := bind_eq_ok.1 h
  dsimp only at h
  split at h
  · cases h
  cases h
  exact readGreedy_length read

end PatternSampler.Reading
