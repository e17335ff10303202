/-
# Atoms

The smallest parts of a pattern: runs of plain characters, escapes, sets, anchors, macros.  A
parenthesis opens a group, whose head is read here and whose inside is a pattern again.  A macro is
a name in `[:` and `:]` that stands for a pattern of its own.

* `expansion?` is the pattern that a macro stands for.
* `readAtom` reads an atom that is no group, `readGroupHead` what follows an opening parenthesis.
-/
import PatternSampler.Reading.Bracket

namespace PatternSampler.Reading

/-! ## Macros -/

/-- The macros, each with the pattern that it stands for. -/
def macros : List (String × String) := [
  ("alnum", "[a-zA-Z0-9]"),
  ("alpha", "[a-zA-Z]"),
  ("upper", "[A-Z]"),
  ("lower", "[a-z]"),
  ("digit", "[0-9]"),
  ("xdigit", "[A-F0-9a-f]"),
  ("space", "[ \\t\\r\\n\\v\\f]"),
  ("blank", "[ \\t]"),
  ("print", "[\\x20-\\x7E]"),
  ("graph", "[\\x21-\\x7E]"),
  ("punct", "[!-/:-@\\[-`\x7b-~]"),
  ("cntrl", "[\\x00-\\x1F\\x7F]"),
  ("guid", "[A-F0-9]\x7b8\x7d(?:-[A-F0-9]\x7b4\x7d)\x7b3\x7d-[A-F0-9]\x7b12\x7d")]

/-- The pattern that a macro stands for. -/
def expansion? (name : String) : Option String :=
  macros.lookup name

/-! ## Atoms -/

/-- An atom that is no group. -/
inductive Atom where
  /-- A fixed text, empty for an anchor. -/
  | text (chars : List Char)
  | set (set : CharSet)
  /-- The group of a number once more. -/
  | backrefNumber (number : Nat)
  /-- The group of a name once more. -/
  | backrefName (name : String)
  /-- The pattern that a name stands for. -/
  | macroName (name : String)

/-- The characters that end a run of plain ones. -/
def metaChars : List Char :=
  ['-', '*', '+', '?', '(', ')', '\x7b', '\x7d', '\\', '[', ']', '^', '$', '.', '|']

/-- The characters at which no atom can begin. -/
def misplacedChars : List Char :=
  ['|', ')', '?', '*', '+', '\x7b', '\x7d']

/-- The set of all ASCII characters but the newline. -/
def dotSet : CharSet :=
  .ofItems true [.range '\x00' '\x09', .range '\x0B' '\x7F']

/-- Reads the name of a macro and the characters that close it; `start` is where the macro began. -/
def readMacroName (start cs : List Char) : Except Fault (String × List Char) :=
  match cs.dropWhile Char.isAlpha with
  | ':' :: ']' :: rest => .ok (String.ofList (cs.takeWhile Char.isAlpha), rest)
  | _ => .error (fault start .macroMalformed)

/-- The atom that an escape stands for. -/
def Escape.atom : Escape → Atom
  | char c => .text [c]
  | shorthand kind => .set (.ofShorthand kind)
  | anchor => .text []
  | backrefNumber number => .backrefNumber number
  | backrefName name => .backrefName name

/-- Reads an atom that is no group. -/
def readAtom (cs : List Char) : Except Fault (Atom × List Char) :=
  match cs with
  | [] => .error (fault [] .elementMissing)
  | '[' :: ':' :: rest => do
    let (name, rest) ← readMacroName cs rest
    .ok (.macroName name, rest)
  | '[' :: rest => do
    let (set, rest) ← readBracket (fault cs .classUnterminated) rest
    .ok (.set set, rest)
  | '\\' :: rest => do
    let (escape, rest) ← readEscape rest
    .ok (escape.atom, rest)
  | c :: rest =>
    if c ∈ misplacedChars then .error (fault cs .elementMisplaced)
    else if c = '.' then .ok (.set dotSet, rest)
    else if c = '^' ∨ c = '$' then .ok (.text [], rest)
    else
      .ok (.text (c :: rest.takeWhile (· ∉ metaChars)), rest.dropWhile (· ∉ metaChars))

/-- What a group in parentheses is for. -/
inductive GroupKind where
  /-- It keeps its text under the next number. -/
  | numbered
  /-- It keeps its text under a name. -/
  | named (name : String)
  /-- It only holds its inside together. -/
  | plain
deriving DecidableEq

/-- Reads what follows an opening parenthesis, up to the inside of the group. -/
def readGroupHead (cs : List Char) : Except Fault (GroupKind × List Char) :=
  match cs with
  | '?' :: ':' :: rest => .ok (.plain, rest)
  | '?' :: rest =>
    match rest with
    | '=' :: _ | '!' :: _ | '<' :: '=' :: _ | '<' :: '!' :: _ => .error (fault rest .lookaround)
    | '<' :: _ | '\'' :: _ => do
      let (name, rest) ← readGroupName rest
      .ok (.named name, rest)
    | _ => .error (fault rest .groupKindUnknown)
  | _ => .ok (.numbered, cs)

/-! ## What is left is shorter -/

theorem readMacroName_length {start cs rest : List Char} {name : String}
    (h : readMacroName start cs = .ok (name, rest)) : rest.length ≤ cs.length := by
  unfold readMacroName at h
  split at h
  · next left eq =>
    cases h
    have := (List.dropWhile_suffix (l := cs) Char.isAlpha).length_le
    simp only [eq, List.length_cons] at this
    omega
  · cases h

theorem readAtom_length {cs rest : List Char} {atom : Atom}
    (h : readAtom cs = .ok (atom, rest)) : rest.length < cs.length := by
  unfold readAtom at h
  split at h
  · cases h
  · obtain ⟨⟨name, left⟩, read, h⟩ := bind_eq_ok.1 h
    cases h
    have := readMacroName_length read
    simp only [List.length_cons]
    omega
  · obtain ⟨⟨set, left⟩, read, h⟩ := bind_eq_ok.1 h
    cases h
    have := readBracket_length read
    simp only [List.length_cons]
    omega
  · obtain ⟨⟨escape, left⟩, read, h⟩ := bind_eq_ok.1 h
    cases h
    have := readEscape_length read
    simp only [List.length_cons]
    omega
  · simp only [List.length_cons, Nat.lt_succ_iff]
    split at h
    · cases h
    split at h
    · cases h
      exact Nat.le_refl _
    split at h
    · cases h
      exact Nat.le_refl _
    · cases h
      exact (List.dropWhile_suffix _).length_le

theorem readGroupHead_length {cs rest : List Char} {kind : GroupKind}
    (h : readGroupHead cs = .ok (kind, rest)) : rest.length ≤ cs.length := by
  have named {tail : List Char} (h : (do
        let (name, rest) ← readGroupName tail
        Except.ok (GroupKind.named name, rest)) = Except.ok (kind, rest)) :
      rest.length < tail.length := by
    obtain ⟨⟨name, left⟩, read, h⟩ := bind_eq_ok.1 h
    cases h
    exact readGroupName_length read
  unfold readGroupHead at h
  split at h
  · cases h
    simp only [List.length_cons]
    omega
  · simp only [List.length_cons]
    split at h
    · cases h
    · cases h
    · cases h
    · cases h
    · have := named h
      omega
    · have := named h
      omega
    · cases h
  · cases h
    exact Nat.le_refl _

end PatternSampler.Reading
