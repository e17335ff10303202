/-
# Character sets

A set lists characters in a table of code points and is read positively (it accepts what it lists)
or negatively (it accepts what it does not list).  The table covers ASCII until a character beyond
it is listed, and then the first 65536 code points.  Surrogates are never characters.

* `Shorthand` is the type of the six classes that have a letter of their own: digits, word
  characters and blanks, each with its complement.
* `CharSet.empty`, `CharSet.ofShorthand`, `CharSet.allBut` build sets; `insert`, `insertRange` and
  `insertShorthand` list more characters.
* `CharSet.accepts` is membership as a matcher sees it.
* `CharSet.selectable` and `CharSet.excludable` count the characters of the table that the set
  accepts and rejects.  The first is kept up to date by every operation.
* `CharSet.ofItems` builds a set from the items that are written between brackets, in their order;
  `ClassItem.denotes` says which characters an item stands for.
-/

namespace PatternSampler

/-! ## Shorthand classes -/

/-- A class of characters named by one letter. -/
inductive Shorthand where
  | digit
  | nonDigit
  | word
  | nonWord
  | space
  | nonSpace
deriving DecidableEq

namespace Shorthand

/-- The class that a letter names after a backslash. -/
def ofLetter? : Char → Option Shorthand
  | 'd' => some digit
  | 'D' => some nonDigit
  | 'w' => some word
  | 'W' => some nonWord
  | 's' => some space
  | 'S' => some nonSpace
  | _ => none

/-- Whether the class is a complement. -/
def negated : Shorthand → Bool
  | digit | word | space => false
  | nonDigit | nonWord | nonSpace => true

/-- Whether a character belongs to the class of which this is the complement, or which this is. -/
def core : Shorthand → Char → Bool
  | digit, c | nonDigit, c => c.isDigit
  | word, c | nonWord, c => c.isAlphanum || c == '_'
  | space, c | nonSpace, c => [' ', '\r', '\n', '\x0C', '\x0B', '\t'].contains c

/-- Whether a character belongs to the class. -/
def accepts (kind : Shorthand) (c : Char) : Bool :=
  kind.core c != kind.negated

end Shorthand

/-! ## Sets -/

/-- A positive or negative list of characters. -/
structure CharSet where
  /-- Whether the listed characters are the accepted ones. -/
  positive : Bool
  /-- For each code point of the table, whether it is listed. -/
  listed : Array Bool
  /-- How many characters of the table are accepted. -/
  choices : Nat
deriving DecidableEq

namespace CharSet

/-- How many code points a narrow table covers. -/
def asciiSize : Nat := 0x80

/-- How many code points a wide table covers. -/
def wideSize : Nat := 0x10000

/-- How many of the code points of a wide table are no characters. -/
def surrogateCount : Nat := 0x800

/-- The last character that can be listed. -/
def lastChar : Char := '\uFFFF'

/-- A set that lists nothing. -/
def empty (positive : Bool) : CharSet where
  positive := positive
  listed := Array.replicate asciiSize false
  choices := if positive then 0 else asciiSize

instance : Inhabited CharSet := ⟨empty true⟩

/-- Whether the table reaches beyond ASCII. -/
def isWide (set : CharSet) : Bool :=
  set.listed.size == wideSize

/-- How many characters the table covers. -/
def extent (set : CharSet) : Nat :=
  if set.isWide then wideSize - surrogateCount else asciiSize

/-- Extends the table beyond ASCII.  Nothing new is listed. -/
def widen (set : CharSet) : CharSet :=
  if set.isWide then set
  else
    { positive := set.positive
      listed := set.listed ++ Array.replicate (wideSize - asciiSize) false
      choices :=
        if set.positive then set.choices
        else set.choices + (wideSize - surrogateCount - asciiSize) }

/-- Lists a code point that the table covers. -/
def mark (set : CharSet) (code : Nat) : CharSet :=
  if set.listed[code]? = some false then
    { positive := set.positive
      listed := set.listed.setIfInBounds code true
      choices := if set.positive then set.choices + 1 else set.choices - 1 }
  else set

/-- Lists a character no greater than `lastChar`. -/
def insert (set : CharSet) (c : Char) : CharSet :=
  (if c.toNat < set.listed.size then set else set.widen).mark c.toNat

/-- Lists those of `count` consecutive code points from `code` on that are characters and satisfy
`keep`. -/
def insertWhere (keep : Char → Bool) : (count code : Nat) → CharSet → CharSet
  | 0, _, set => set
  | count + 1, code, set =>
    insertWhere keep count (code + 1)
      (if code.isValidChar ∧ keep (Char.ofNat code) then set.insert (Char.ofNat code) else set)

/-- Lists every character from `first` to `last`. -/
def insertRange (set : CharSet) (first last : Char) : CharSet :=
  insertWhere (fun _ => true) (last.toNat + 1 - first.toNat) first.toNat set

/-- Lists the characters of a shorthand class as far as the table reaches; a complement widens the
table first. -/
def insertShorthand (set : CharSet) (kind : Shorthand) : CharSet :=
  let set := if kind.negated then set.widen else set
  insertWhere kind.accepts set.listed.size 0 set

/-- The set of a shorthand class that stands alone: a complement is a negative list. -/
def ofShorthand (kind : Shorthand) : CharSet :=
  insertWhere kind.core asciiSize 0 (empty !kind.negated)

/-- The negative set that rejects only `c`. -/
def allBut (c : Char) : CharSet :=
  if c ≤ lastChar then (empty false).insert c else (empty false).widen

/-- Whether a matcher accepts a character.  A negative set accepts whatever it does not list, also
beyond its table. -/
def accepts (set : CharSet) (c : Char) : Bool :=
  set.listed.getD c.toNat false == set.positive

/-- How many characters a valid choice can produce. -/
def selectable (set : CharSet) : Nat :=
  set.choices

/-- How many characters of the table an invalid choice can produce. -/
def excludable (set : CharSet) : Nat :=
  set.extent - set.choices

/-- Whether some character of the table is rejected. -/
def isInvalidatable (set : CharSet) : Bool :=
  0 < set.excludable

end CharSet

/-! ## Items -/

/-- A character, a range or a shorthand class in a set. -/
inductive ClassItem where
  | char (c : Char)
  | range (first last : Char)
  | shorthand (kind : Shorthand)
deriving DecidableEq

/-- Whether an item stands for a character. -/
def ClassItem.denotes : ClassItem → Char → Bool
  | char c, d => d == c
  | range first last, d => first ≤ d && d ≤ last
  | shorthand kind, d => kind.accepts d

namespace CharSet

/-- Lists the characters of an item. -/
def insertItem (set : CharSet) : ClassItem → CharSet
  | .char c => set.insert c
  | .range first last => set.insertRange first last
  | .shorthand kind => set.insertShorthand kind

/-- The positive or negative set that lists the characters of some items. -/
def ofItems (positive : Bool) (items : List ClassItem) : CharSet :=
  items.foldl insertItem (empty positive)

end CharSet

end PatternSampler
