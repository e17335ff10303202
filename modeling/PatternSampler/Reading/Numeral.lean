/-
# Faults, and numbers in patterns

A reader that meets a fault reports its cause and how much of the text was left where it met it.
The readers in these modules work on what is left of a text and know nothing of what came before;
the distance from the start is worked out once, for the whole text.

The first readers are those of decimal numbers of any length, hexadecimal numbers of a fixed number
of digits, and octal numbers of at most two digits.
-/
import PatternSampler.Error

namespace PatternSampler.Reading

/-! ## Faults -/

/-- A cause and the number of characters left where it was noticed. -/
structure Fault where
  /-- How many characters were left. -/
  remaining : Nat
  /-- What is wrong. -/
  cause : ReadError
deriving DecidableEq

/-- Reports a cause where `cs` is left. -/
def fault (cs : List Char) (cause : ReadError) : Fault :=
  { remaining := cs.length, cause }

/-- A sequence of two readers succeeds exactly if both do. -/
theorem bind_eq_ok {ε α β : Type} {x : Except ε α} {f : α → Except ε β} {b : β} :
    (x >>= f) = .ok b ↔ ∃ a, x = .ok a ∧ f a = .ok b := by
  cases x <;> simp [bind, Except.bind]

/-! ## Numbers -/

/-- The greatest number of 64 bits. -/
def wordMax : Nat := UInt64.size - 1

/-- The value of a digit of any base up to sixteen. -/
def digitValue (c : Char) : Nat :=
  if c.isDigit then c.toNat - '0'.toNat
  else if 'a' ≤ c ∧ c ≤ 'f' then c.toNat - 'a'.toNat + 10
  else c.toNat - 'A'.toNat + 10

/-- Whether a character is a hexadecimal digit. -/
def isHexDigit (c : Char) : Bool :=
  c.isDigit || ('a' ≤ c && c ≤ 'f') || ('A' ≤ c && c ≤ 'F')

/-- The number that digits of a base spell. -/
def numberOf (base : Nat) (digits : List Char) : Nat :=
  digits.foldl (fun n c => n * base + digitValue c) 0

/-- The decimal digits at the front of a text, and what follows them. -/
def decimalRun (cs : List Char) : List Char × List Char :=
  (cs.takeWhile Char.isDigit, cs.dropWhile Char.isDigit)

/-- Reads decimal digits, of which there must be at least one before this is called, as a number of
64 bits. -/
def readDecimal (cs : List Char) : Except Fault (Nat × List Char) :=
  let (digits, rest) := decimalRun cs
  if numberOf 10 digits ≤ wordMax then .ok (numberOf 10 digits, rest)
  else .error (fault cs (.numberOverflow (String.ofList digits)))

/-- Reads exactly `left` more of `wanted` hexadecimal digits, those before them having the value
`value`. -/
def readHexFrom (wanted : Nat) : (left value : Nat) → List Char → Except Fault (Nat × List Char)
  | 0, value, cs => .ok (value, cs)
  | left + 1, value, c :: rest =>
    if isHexDigit c then readHexFrom wanted left (value * 16 + digitValue c) rest
    else .error (fault (c :: rest) (.hexDigitsMissing wanted))
  | _ + 1, _, [] => .error (fault [] (.hexDigitsMissing wanted))

/-- Reads a number of exactly `digits` hexadecimal digits. -/
def readHex (digits : Nat) (cs : List Char) : Except Fault (Nat × List Char) :=
  readHexFrom digits digits 0 cs

/-- Whether a character is an octal digit. -/
def isOctalDigit (c : Char) : Bool :=
  '0' ≤ c && c ≤ '7'

/-- Reads an octal number of at most two digits; without any digit it is zero. -/
def readOctal (cs : List Char) : Nat × List Char :=
  let digits := (cs.take 2).takeWhile isOctalDigit
  (numberOf 8 digits, cs.drop digits.length)

theorem length_decimalRun (cs : List Char) : (decimalRun cs).2.length ≤ cs.length :=
  (List.dropWhile_suffix _).length_le

theorem length_decimalRun_cons {c : Char} (h : c.isDigit) (cs : List Char) :
    (decimalRun (c :: cs)).2.length ≤ cs.length := by
  simp only [decimalRun, List.dropWhile_cons, h, if_true]
  exact (List.dropWhile_suffix _).length_le

theorem readDecimal_length {c : Char} {cs rest : List Char} {n : Nat} (digit : c.isDigit)
    (h : readDecimal (c :: cs) = .ok (n, rest)) : rest.length ≤ cs.length := by
  simp only [readDecimal] at h
  split at h
  · cases h
    exact length_decimalRun_cons digit cs
  · cases h

theorem readHexFrom_length {wanted left value n : Nat} {cs rest : List Char}
    (h : readHexFrom wanted left value cs = .ok (n, rest)) : rest.length + left = cs.length := by
  induction left generalizing value cs with
  | zero =>
    cases h
    rfl
  | succ left ih =>
    match cs with
    | [] => cases h
    | c :: cs =>
      simp only [readHexFrom] at h
      split at h
      · simp only [List.length_cons, ← ih h]
        omega
      · cases h

theorem length_readOctal (cs : List Char) : (readOctal cs).2.length ≤ cs.length := by
  simp [readOctal]

end PatternSampler.Reading
