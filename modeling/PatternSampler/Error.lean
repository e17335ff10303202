/-
# Errors

Why a pattern cannot be read, and why a string cannot be sampled.  Causes are values; their wording
is fixed in one function for each kind.

* `ReadError` lists what can be wrong with the text of a pattern.
* `SampleError` lists how compiling a pattern or sampling from it can fail.
-/
import PatternSampler.Text.Quoted

namespace PatternSampler

/-- What is wrong with the text of a pattern. -/
inductive ReadError where
  /-- A character is left over after the whole pattern. -/
  | leftover (c : Char)
  /-- One character was needed and another one, or none, was there. -/
  | expected (wanted : Char) (found : Option Char)
  | lazyQuantifier
  | boundsReversed
  | boundMissing
  /-- The digits of a repeat bound exceed 64 bits. -/
  | boundOverflow (digits : String)
  /-- A repeat bound exceeds the largest one that is accepted. -/
  | boundTooLarge (value limit : Nat)
  | elementMissing
  | elementMisplaced
  | escapeUnfinished
  | escapeUnknown (c : Char)
  | markerMisplaced
  | wordBoundary
  | hexDigitsMissing (digits : Nat)
  /-- The digits of a decimal escape exceed 64 bits. -/
  | numberOverflow (digits : String)
  | codePointTooLarge (value : Nat)
  | codePointInvalid (value : Nat)
  | danglingNumber (number : Nat)
  | danglingName (name : String)
  | groupNameUnopened
  | groupNameInvalid
  | groupUnclosed
  | groupKindUnknown
  | lookaround
  | macroMalformed
  | macroUnknown (name : String)
  | macroUnreadable (name : String)
  | classUnterminated
  | classItemInvalid
  | classEscapeUnfinished
  | classEscapeUnknown
  | classRangeEnd
  | classRangeReversed
  | classCharTooLarge
deriving DecidableEq

namespace ReadError

/-- What is said of a number of more than 64 bits. -/
def overflowText : String :=
  "number too large to fit in target type"

/-- The wording of an error. -/
def message : ReadError → String
  | leftover c => "Unexpected character '" ++ c.toString ++ "'"
  | expected wanted (some found) =>
    "Expected '" ++ wanted.toString ++ "', got '" ++ found.toString ++ "'"
  | expected wanted none => "Expected '" ++ wanted.toString ++ "', got end of pattern"
  | lazyQuantifier => "Lazy quantifiers are not supported"
  | boundsReversed => "Max repeat is less than min repeat"
  | boundMissing => "Repeat values cannot be parsed"
  | boundOverflow digits => "Repeat value '" ++ digits ++ "': " ++ overflowText
  | boundTooLarge value limit =>
    "Repeat value " ++ toString value ++ " exceeds the limit of " ++ toString limit
  | elementMissing => "Reached end of pattern, no element found"
  | elementMisplaced => "No element found before quantifier or delimiter"
  | escapeUnfinished => "Unexpected end of pattern after '\\'"
  | escapeUnknown c => "Invalid escape '\\" ++ c.toString ++ "'"
  | markerMisplaced => "Misplaced invalidation marker"
  | wordBoundary => "Word boundaries are not supported"
  | hexDigitsMissing digits => "Expected " ++ toString digits ++ " hex digits"
  | numberOverflow digits => "Invalid number '" ++ digits ++ "': " ++ overflowText
  | codePointTooLarge value => "Code point " ++ toString value ++ " is out of range"
  | codePointInvalid value => "Invalid code point 0x" ++ String.ofList (Nat.toDigits 16 value)
  | danglingNumber number => "Dangling backreference \\" ++ toString number
  | danglingName name => "Dangling backreference \\k<" ++ name ++ ">"
  | groupNameUnopened => "Group name must begin with ' or <"
  | groupNameInvalid => "Invalid characters in group name"
  | groupUnclosed => "Unmatched '(': expected ')'"
  | groupKindUnknown => "Invalid group syntax after '(?'"
  | lookaround => "Lookaround is not supported"
  | macroMalformed => "Cannot parse macro"
  | macroUnknown name => "Unknown macro [:" ++ name ++ ":]"
  | macroUnreadable name => "Cannot expand macro [:" ++ name ++ ":]"
  | classUnterminated => "Unterminated character class"
  | classItemInvalid => "Invalid character inside set"
  | classEscapeUnfinished => "Unexpected end in character class escape"
  | classEscapeUnknown => "Invalid escape inside of set"
  | classRangeEnd => "Invalid range end"
  | classRangeReversed => "Invalid range specified in char set"
  | classCharTooLarge => "Character outside the 16-bit range"

end ReadError

/-- How compiling a pattern or sampling from it fails. -/
inductive SampleError where
  /-- The pattern cannot be read; `position` counts the characters before the fault. -/
  | unreadable (position : Nat) (cause : ReadError)
  /-- The pattern asks for invalid output and nothing that is marked can be invalidated. -/
  | nothingToInvalidate (pattern : String)
  /-- A set has no character to choose from. -/
  | emptySet
  /-- The text that was meant to be invalid matches the pattern. -/
  | stillMatches (pattern generated : String)
deriving DecidableEq

namespace SampleError

/-- The wording of an error. -/
def message : SampleError → String
  | unreadable position cause =>
    "pattern syntax error at position " ++ toString position ++ ": " ++ cause.message
  | nothingToInvalidate pattern =>
    "pattern `" ++ pattern ++ "` asks for invalid output but has no invalidatable node"
  | emptySet => "character set has no selectable characters"
  | stillMatches pattern generated =>
    "pattern `" ++ pattern ++ "` did not produce an invalid string: " ++ quoted generated

end SampleError

end PatternSampler
