/-
# Reading patterns

Alternatives are branches between bars, a branch is a list of pieces, and a piece is an atom with an
optional quantifier.  An invalidation marker, a backslash and an i, marks the atom behind it, the
repetition it stands in front of, or, at the end of a branch, the piece before it.

Each reader returns the text that is left together with the fact that nothing was added to it; a
piece always takes something away, so reading ends.

* `Compiled.ofPattern?` reads a whole pattern.
* `Draft.read` reads one into a draft that may hold others.
-/
import PatternSampler.Reading.Draft
import PatternSampler.Reading.Quantifier

namespace PatternSampler

namespace Reading

/-- A text that is left of `cs`. -/
abbrev Rest (cs : List Char) := { rest : List Char // rest.length ≤ cs.length }

/-- A text that is left of `cs` after something was taken away. -/
abbrev Shorter (cs : List Char) := { rest : List Char // rest.length < cs.length }

/-- How a reader treats macros: for each name, the reader of what the macro stands for. -/
abbrev Macros := String → Option (Reader Nat)

/-! ## Markers -/

/-- Whether a text begins with a marker. -/
def atMarker : List Char → Bool
  | '\\' :: 'i' :: _ => true
  | _ => false

/-- Whether a text begins with a marker in front of a quantifier. -/
def atQuantifierMarker : List Char → Bool
  | '\\' :: 'i' :: c :: _ => c ∈ ['*', '+', '?', '{']
  | _ => false

/-- Whether a text begins with a marker at the end of a branch. -/
def atClosingMarker : List Char → Bool
  | '\\' :: 'i' :: rest => rest.head?.all fun c => c ∈ ['|', ')']
  | _ => false

/-- Takes a marker away where there is one and turns marking on. -/
def takeMarker (present : Bool) (cs : List Char) : Reader (Rest cs) := do
  if present then
    modify Draft.mark
    return ⟨cs.drop 2, by simp⟩
  else return ⟨cs, Nat.le_refl _⟩

/-- Takes a marker at the end of a branch away and marks the nodes from `first` on. -/
def takeClosingMarker (first : Nat) (cs : List Char) : Reader (Rest cs) := do
  if atClosingMarker cs then
    modify (Draft.markFrom · first)
    return ⟨cs.drop 2, by simp⟩
  else return ⟨cs, Nat.le_refl _⟩

/-- Turns marking on or off. -/
def setMarking (marking : Bool) : Reader Unit :=
  modify fun d => { d with marking }

/-! ## Pieces without their inside -/

/-- Adds the node of an atom; `start` is where the atom began. -/
def plantAtom (macros : Macros) (start : List Char) : Atom → Reader Nat
  | .text chars => plant (.text chars)
  | .set set => plant (.set set)
  | .backrefNumber number => do
    match (← get).groupOfNumber? number with
    | some target => plant (.backref target)
    | none => throw (fault start (.danglingNumber number))
  | .backrefName name => do
    match (← get).groupOfName? name with
    | some target => plant (.backref target)
    | none => throw (fault start (.danglingName name))
  | .macroName name =>
    match macros name with
    | some reader => reader.adaptExcept fun _ => fault start (.macroUnreadable name)
    | none => throw (fault start (.macroUnknown name))

/-- Reads a quantifier behind an atom, if there is one, and adds the node of the repetition. -/
def quantified (atom : Nat) (cs : List Char) : Reader (Nat × Rest cs) :=
  match h : readQuantifier cs with
  | .error e => throw e
  | .ok (none, rest) => return (atom, ⟨rest, readQuantifier_length h⟩)
  | .ok (some q, rest) =>
    return (← plant (.repetition atom q.bounds q.sameText), ⟨rest, readQuantifier_length h⟩)

/-- The node of a branch: an empty text for no piece, the piece itself for a single one. -/
def plantBranch : List Nat → Reader Nat
  | [] => plant (.text [])
  | [piece] => return piece
  | pieces => plant (.concat pieces)

/-- The node of several alternatives; a single one stands for itself. -/
def plantAlternatives (first : Nat) : List Nat → Reader Nat
  | [] => return first
  | more => plant (.alternation (first :: more))

/-- Whether a branch ends here. -/
def atBranchEnd : List Char → Bool
  | [] => true
  | c :: _ => c == ')' || c == '|'

/-! ## Patterns -/

mutual

/-- Reads alternatives up to a closing parenthesis or the end of the text. -/
def alternatives (macros : Macros) (cs : List Char) : Reader (Nat × Rest cs) := do
  let (first, ⟨rest, h⟩) ← branch macros cs
  let (more, ⟨rest', h'⟩) ← furtherBranches macros rest
  return (← plantAlternatives first more, ⟨rest', Nat.le_trans h' h⟩)
termination_by 6 * cs.length + 5

/-- Reads any number of bars with a branch behind each. -/
def furtherBranches (macros : Macros) : (cs : List Char) → Reader (List Nat × Rest cs)
  | '|' :: tail => do
    let (first, ⟨rest, h⟩) ← branch macros tail
    let (more, ⟨rest', h'⟩) ← furtherBranches macros rest
    return (first :: more, ⟨rest', by simp only [List.length_cons]; omega⟩)
  | cs => return ([], ⟨cs, Nat.le_refl _⟩)
termination_by cs => 6 * cs.length + 4

/-- Reads one branch. -/
def branch (macros : Macros) (cs : List Char) : Reader (Nat × Rest cs) := do
  let (nodes, rest) ← pieces macros cs
  return (← plantBranch nodes, rest)
termination_by 6 * cs.length + 3

/-- Reads the pieces of a branch. -/
def pieces (macros : Macros) (cs : List Char) : Reader (List Nat × Rest cs) := do
  if atBranchEnd cs then return ([], ⟨cs, Nat.le_refl _⟩)
  let (first, ⟨rest, h⟩) ← piece macros cs
  let (more, ⟨rest', h'⟩) ← pieces macros rest
  return (first :: more, ⟨rest', by omega⟩)
termination_by 6 * cs.length + 2

/-- Reads an atom, an optional quantifier and the markers around them. -/
def piece (macros : Macros) (cs : List Char) : Reader (Nat × Shorter cs) := do
  let before ← get
  let ⟨body, h₁⟩ ← takeMarker (atMarker cs) cs
  let (node, ⟨rest, h₂⟩) ← atom macros body
  setMarking before.marking
  let ⟨rest, h₃⟩ ← takeMarker (atQuantifierMarker rest) rest
  let (node, ⟨rest, h₄⟩) ← quantified node rest
  setMarking before.marking
  let ⟨rest, h₅⟩ ← takeClosingMarker before.tree.size rest
  return (node, ⟨rest, by omega⟩)
termination_by 6 * cs.length + 1

/-- Reads an atom. -/
def atom (macros : Macros) : (cs : List Char) → Reader (Nat × Shorter cs)
  | '(' :: tail =>
    match h : readGroupHead tail with
    | .error e => throw e
    | .ok (kind, inside) => do
      let number ← openGroup kind
      let (body, ⟨rest, h'⟩) ← alternatives macros inside
      match eq : rest with
      | ')' :: after =>
        return (← closeGroup kind number body,
          ⟨after, by
            have := readGroupHead_length h
            simp only [eq, List.length_cons] at h' ⊢
            omega⟩)
      | _ => throw (fault ('(' :: tail) .groupUnclosed)
  | cs =>
    match h : readAtom cs with
    | .error e => throw e
    | .ok (a, rest) => return (← plantAtom macros cs a, ⟨rest, readAtom_length h⟩)
termination_by cs => 6 * cs.length
decreasing_by
  have := readGroupHead_length h
  simp only [List.length_cons]
  omega

end

/-- Reads alternatives that make up the whole text. -/
def wholePattern (macros : Macros) (cs : List Char) : Reader Nat := do
  let (root, ⟨rest, _⟩) ← alternatives macros cs
  match rest with
  | [] => return root
  | c :: _ => throw (fault rest (.leftover c))

/-- Reads the expansion of a macro.  Macros in it are unknown: no expansion has one. -/
def expandMacro : Macros := fun name =>
  (expansion? name).map fun text => wholePattern (fun _ => none) text.toList

end Reading

/-- Reads a pattern into a draft; the result is its root.  A fault leaves the draft as it is. -/
def Draft.read (d : Draft) (pattern : String) : Except SampleError Nat × Draft :=
  let cs := pattern.toList
  match Reading.wholePattern Reading.expandMacro cs d with
  | .ok root d => (.ok root, d)
  | .error e d => (.error (.unreadable (cs.length - e.remaining) e.cause), d)

/-- Reads a pattern. -/
def Compiled.ofPattern? (pattern : String) : Except SampleError Compiled :=
  match Draft.read {} pattern with
  | (.ok root, d) => .ok (d.finish root)
  | (.error e, _) => .error e

end PatternSampler
