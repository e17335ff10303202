/-
# Calls of readers

The reader of a part calls the readers of smaller parts, each on the text and the draft that are
left when its turn comes.  What holds of every call of a reading is proved along these calls.

* `Call` : a reader together with the text and the draft that it starts on, `Call.Ends` : its
  outcome.
* `Call.calls` : the calls that a call makes itself, `Call.Course` : what it does besides them.
* `Call.Ends.course` and `Call.Course.toEnds` : a call ends exactly if it has such a course.
* `Call.Ends.induct` : induction along calls.
-/
import PatternSampler.Proofs.Reading.Building

namespace PatternSampler.Reading

/-- A call of a reader. -/
structure Call where
  /-- Whether the text is what a macro stands for.  In it there are no macros. -/
  expanding : Bool
  /-- What is read. -/
  level : Level
  /-- The text that is left. -/
  text : List Char
  /-- The draft that is worked on. -/
  draft : Draft

namespace Call

/-- The macros that are known to a call. -/
def known (C : Call) : Macros :=
  if C.expanding then fun _ => none else expandMacro

/-- A call ends with some nodes, some text left and some draft. -/
def Ends (C : Call) (ids : List ℕ) (rest : List Char) (d : Draft) : Prop :=
  Runs C.known C.level C.text ids rest C.draft d

/-! ## Outcomes that can be computed -/

/-- The reader of a level, with the nodes and the text left as its result. -/
def reader (macros : Macros) (cs : List Char) : Level → Reader (List ℕ × List Char)
  | .atom => do
    let (id, rest) ← atom macros cs
    return ([id], rest.1)
  | .piece => do
    let (id, rest) ← piece macros cs
    return ([id], rest.1)
  | .pieces => do
    let (ids, rest) ← pieces macros cs
    return (ids, rest.1)
  | .branches => do
    let (first, rest) ← branch macros cs
    let (more, rest') ← furtherBranches macros rest.1
    return (first :: more, rest'.1)

/-- What a reader ends with, unless it fails. -/
def result? {α : Type} (reader : Reader α) (d : Draft) : Option (α × Draft) :=
  match reader.run d with
  | .ok a d' => some (a, d')
  | .error _ _ => none

/-- What a call ends with, unless it fails. -/
def outcome? (C : Call) : Option (List ℕ × List Char × Draft) :=
  (result? (reader C.known C.text C.level) C.draft).map fun ((ids, rest), d) => (ids, rest, d)

theorem result?_eq_some_iff {α : Type} {reader : Reader α} {d d' : Draft} {a : α} :
    result? reader d = some (a, d') ↔ reader d = .ok a d' := by
  unfold result? EStateM.run
  rcases reader d with ⟨b, d₁⟩ | ⟨e, d₁⟩
  · simp
  · simp

variable {C C' : Call} {made : List Call} {ids : List ℕ} {rest : List Char} {d : Draft}

theorem reader_eq_ok_iff {macros : Macros} {level : Level} {cs : List Char} {d d' : Draft} :
    reader macros cs level d = .ok (ids, rest) d' ↔ Runs macros level cs ids rest d d' := by
  cases level with
  | atom =>
    rw [reader, bind_eq_ok_iff]
    constructor
    · rintro ⟨⟨id, left, short⟩, _, run, ⟨⟩⟩
      exact ⟨id, short, rfl, run⟩
    · rintro ⟨id, short, rfl, run⟩
      exact ⟨(id, ⟨rest, short⟩), d', run, rfl⟩
  | piece =>
    rw [reader, bind_eq_ok_iff]
    constructor
    · rintro ⟨⟨id, left, short⟩, _, run, ⟨⟩⟩
      exact ⟨id, short, rfl, run⟩
    · rintro ⟨id, short, rfl, run⟩
      exact ⟨(id, ⟨rest, short⟩), d', run, rfl⟩
  | pieces =>
    rw [reader, bind_eq_ok_iff]
    constructor
    · rintro ⟨⟨nodes, left, h⟩, _, run, ⟨⟩⟩
      exact ⟨h, run⟩
    · rintro ⟨h, run⟩
      exact ⟨(ids, ⟨rest, h⟩), d', run, rfl⟩
  | branches =>
    rw [reader, bind_eq_ok_iff]
    constructor
    · rintro ⟨⟨first, rest₁, h⟩, d₁, run, further⟩
      obtain ⟨⟨more, rest₂, h'⟩, d₂, run', same⟩ := bind_eq_ok_iff.1 further
      cases same
      exact ⟨first, more, rest₁, h, h', d₁, rfl, run, run'⟩
    · rintro ⟨first, more, rest₁, h, h', d₁, rfl, run, run'⟩
      exact ⟨(first, ⟨rest₁, h⟩), d₁, run, bind_eq_ok_iff.2 ⟨(more, ⟨rest, h'⟩), d', run', rfl⟩⟩

theorem outcome?_eq_some_iff : C.outcome? = some (ids, rest, d) ↔ C.Ends ids rest d := by
  rw [Ends, ← reader_eq_ok_iff, outcome?, Option.map_eq_some_iff, ← result?_eq_some_iff]
  constructor
  · rintro ⟨⟨⟨ids', rest'⟩, d'⟩, run, ⟨⟩⟩
    exact run
  · intro run
    exact ⟨((ids, rest), d), run, rfl⟩

/-- A call of whose outcome something is found out ends. -/
theorem exists_ends {α : Type} {f : List ℕ × List Char × Draft → α} {a : α}
    (run : C.outcome?.map f = some a) :
    ∃ ids rest d, C.Ends ids rest d ∧ f (ids, rest, d) = a := by
  obtain ⟨⟨ids, rest, d⟩, outcome, eq⟩ := Option.map_eq_some_iff.1 run
  exact ⟨ids, rest, d, outcome?_eq_some_iff.1 outcome, eq⟩

/-- A call has one outcome. -/
theorem Ends.unique {ids' : List ℕ} {rest' : List Char} {d' : Draft} (ends : C.Ends ids rest d)
    (ends' : C.Ends ids' rest' d') : ids = ids' ∧ rest = rest' ∧ d = d' := by
  have same := (outcome?_eq_some_iff.2 ends).symm.trans (outcome?_eq_some_iff.2 ends')
  simpa using same

/-! ## Calls that a call makes -/

/-- The call on the inside of a group; `tail` is what stands behind the opening parenthesis. -/
def onInside (C : Call) (tail : List Char) : List Call :=
  match readGroupHead tail with
  | .ok (kind, inside) =>
    (result? (openGroup kind) C.draft).toList.map fun (_, d) =>
      { C with level := .branches, text := inside, draft := d }
  | .error _ => []

/-- The call on what a macro stands for, if the atom is one. -/
def onExpansion (C : Call) : List Call :=
  match readAtom C.text with
  | .ok (.macroName name, _) =>
    if C.expanding then []
    else (expansion? name).toList.map fun text =>
      { C with expanding := true, level := .branches, text := text.toList }
  | _ => []

/-- The call on the branches behind a bar, after the pieces of a branch have been read. -/
def onFurther (C : Call) : List ℕ × List Char × Draft → List Call
  | (ids, '|' :: tail, d) =>
    (result? (plantBranch ids) d).toList.map fun (_, d) => { C with text := tail, draft := d }
  | _ => []

/-- The calls that a call makes itself, in their order. -/
def calls (C : Call) : List Call :=
  match C.level with
  | .atom =>
    match C.text with
    | '(' :: tail => C.onInside tail
    | _ => C.onExpansion
  | .piece =>
    [{ C with
      level := .atom
      text := skipMarker (atMarker C.text) C.text
      draft := C.draft.markIf (atMarker C.text) }]
  | .pieces =>
    if atBranchEnd C.text then []
    else
      let first := { C with level := .piece }
      first :: first.outcome?.toList.map fun (_, rest, d) => { C with text := rest, draft := d }
  | .branches =>
    let first := { C with level := .pieces }
    first :: first.outcome?.toList.flatMap C.onFurther

/-- What a call does: it makes calls, and with what they end with it goes on. -/
inductive Course : Call → List Call → List ℕ → List Char → Draft → Prop
  | atom {expanding : Bool} {cs rest : List Char} {a : Atom} {id : ℕ} {d d' : Draft} :
      cs.head? ≠ some '(' → readAtom cs = .ok (a, rest) → (∀ name, a ≠ .macroName name) →
      (Phrase.atom a).build d = .ok id d' →
      Course ⟨expanding, .atom, cs, d⟩ [] [id] rest d'
  | expansion {cs rest : List Char} {name text : String} {first id : ℕ} {more : List ℕ}
      {d d₁ d' : Draft} :
      cs.head? ≠ some '(' → readAtom cs = .ok (.macroName name, rest) →
      expansion? name = some text → Ends ⟨true, .branches, text.toList, d⟩ (first :: more) [] d₁ →
      plantAlternatives first more d₁ = .ok id d' →
      Course ⟨false, .atom, cs, d⟩ [⟨true, .branches, text.toList, d⟩] [id] rest d'
  | group {expanding : Bool} {tail inside rest : List Char} {kind : GroupKind}
      {number : Option ℕ} {first body id : ℕ} {more : List ℕ} {d d₁ d₂ d₃ d' : Draft} :
      readGroupHead tail = .ok (kind, inside) → openGroup kind d = .ok number d₁ →
      Ends ⟨expanding, .branches, inside, d₁⟩ (first :: more) (')' :: rest) d₂ →
      plantAlternatives first more d₂ = .ok body d₃ → closeGroup kind number body d₃ = .ok id d' →
      Course ⟨expanding, .atom, '(' :: tail, d⟩ [⟨expanding, .branches, inside, d₁⟩] [id] rest d'
  | piece {expanding : Bool} {cs rest₁ rest₂ : List Char} {node id : ℕ}
      {quantifier : Option Quantifier} {d d₁ d₂ : Draft} :
      Ends ⟨expanding, .atom, skipMarker (atMarker cs) cs, d.markIf (atMarker cs)⟩ [node] rest₁ d₁ →
      readQuantifier (skipMarker (atQuantifierMarker rest₁) rest₁) = .ok (quantifier, rest₂) →
      Phrase.repeated quantifier node
        (Draft.markIf (atQuantifierMarker rest₁) { d₁ with marking := d.marking }) = .ok id d₂ →
      Course ⟨expanding, .piece, cs, d⟩
        [⟨expanding, .atom, skipMarker (atMarker cs) cs, d.markIf (atMarker cs)⟩] [id]
        (skipMarker (atClosingMarker rest₂) rest₂)
        (Draft.markFromIf (atClosingMarker rest₂) d.tree.size { d₂ with marking := d.marking })
  | stop {expanding : Bool} {cs : List Char} {d : Draft} :
      atBranchEnd cs = true → Course ⟨expanding, .pieces, cs, d⟩ [] [] cs d
  | next {expanding : Bool} {cs rest₁ rest : List Char} {id : ℕ} {ids : List ℕ}
      {d d₁ d' : Draft} :
      atBranchEnd cs = false → Ends ⟨expanding, .piece, cs, d⟩ [id] rest₁ d₁ →
      Ends ⟨expanding, .pieces, rest₁, d₁⟩ ids rest d' →
      Course ⟨expanding, .pieces, cs, d⟩
        [⟨expanding, .piece, cs, d⟩, ⟨expanding, .pieces, rest₁, d₁⟩] (id :: ids) rest d'
  | last {expanding : Bool} {cs rest : List Char} {ids : List ℕ} {id : ℕ} {d d₁ d' : Draft} :
      Ends ⟨expanding, .pieces, cs, d⟩ ids rest d₁ → rest.head? ≠ some '|' →
      plantBranch ids d₁ = .ok id d' →
      Course ⟨expanding, .branches, cs, d⟩ [⟨expanding, .pieces, cs, d⟩] [id] rest d'
  | more {expanding : Bool} {cs tail rest : List Char} {ids ids' : List ℕ} {id : ℕ}
      {d d₁ d₂ d' : Draft} :
      Ends ⟨expanding, .pieces, cs, d⟩ ids ('|' :: tail) d₁ → plantBranch ids d₁ = .ok id d₂ →
      Ends ⟨expanding, .branches, tail, d₂⟩ ids' rest d' →
      Course ⟨expanding, .branches, cs, d⟩
        [⟨expanding, .pieces, cs, d⟩, ⟨expanding, .branches, tail, d₂⟩] (id :: ids') rest d'

theorem exists_cons_of_head? {c : Char} {cs : List Char} (h : cs.head? = some c) :
    ∃ tail, cs = c :: tail :=
  ⟨cs.tail, (List.cons_head?_tail h).symm⟩

theorem alternatives_eq_ok_iff_runs {macros : Macros} {cs rest : List Char} {id : ℕ}
    {d d' : Draft} : (∃ h, alternatives macros cs d = .ok (id, ⟨rest, h⟩) d') ↔
      ∃ first more d₁, Runs macros .branches cs (first :: more) rest d d₁ ∧
        plantAlternatives first more d₁ = .ok id d' := by
  constructor
  · rintro ⟨h, run⟩
    obtain ⟨node, rest₁, h₁, h₂, others, d₁, d₂, branch, further, planted⟩ :=
      alternatives_eq_ok_iff.1 run
    exact ⟨node, others, d₂, ⟨node, others, rest₁, h₁, h₂, d₁, rfl, branch, further⟩, planted⟩
  · rintro ⟨first, more, d₂, ⟨_, _, rest₁, h₁, h₂, d₁, ⟨⟩, branch, further⟩, planted⟩
    refine ⟨h₂.trans h₁, alternatives_eq_ok_iff.2 ?_⟩
    exact ⟨first, rest₁, h₁, h₂, more, d₁, d₂, branch, further, planted⟩

theorem wholePattern_eq_ok_iff_runs {macros : Macros} {cs : List Char} {id : ℕ} {d d' : Draft} :
    wholePattern macros cs d = .ok id d' ↔
      ∃ first more d₁, Runs macros .branches cs (first :: more) [] d d₁ ∧
        plantAlternatives first more d₁ = .ok id d' := by
  rw [← alternatives_eq_ok_iff_runs, wholePattern, bind_eq_ok_iff]
  constructor
  · rintro ⟨⟨root, rest, h⟩, d₁, run, left⟩
    cases rest with
    | nil =>
      cases left
      exact ⟨h, run⟩
    | cons c others => cases left
  · rintro ⟨h, run⟩
    exact ⟨(id, ⟨[], h⟩), d', run, rfl⟩

/-- An atom that is no group: the calls for it are those on what a macro stands for. -/
theorem Ends.course_atom {expanding : Bool} {cs : List Char} {d' : Draft}
    (plain : cs.head? ≠ some '(') (ends : Ends ⟨expanding, .atom, cs, d⟩ ids rest d') :
    Course ⟨expanding, .atom, cs, d⟩ (calls ⟨expanding, .atom, cs, d⟩) ids rest d' := by
  obtain ⟨id, short, rfl, run⟩ := ends
  obtain ⟨a, read, planted⟩ := (atom_eq_ok_iff plain).1 run
  have made : calls ⟨expanding, .atom, cs, d⟩ = onExpansion ⟨expanding, .atom, cs, d⟩ := by
    unfold calls
    dsimp only
    split
    · exact absurd rfl plain
    · rfl
  rw [made, onExpansion, read]
  cases a with
  | macroName name =>
    obtain ⟨reader, found, expanded⟩ : ∃ reader, known ⟨expanding, .atom, cs, d⟩ name = some reader ∧
        reader d = .ok id d' := by
      rw [plantAtom] at planted
      rcases found : known ⟨expanding, .atom, cs, d⟩ name with _ | reader
      · simp only [found] at planted
        cases planted
      · simp only [found] at planted
        exact ⟨reader, rfl, adaptExcept_eq_ok_iff.1 planted⟩
    cases expanding with
    | true => cases found
    | false =>
      obtain ⟨text, expands, rfl⟩ := Option.map_eq_some_iff.1 found
      obtain ⟨first, more, d₁, inner, planted⟩ := wholePattern_eq_ok_iff_runs.1 expanded
      dsimp only
      rw [if_neg Bool.false_ne_true, expands]
      exact .expansion plain read expands inner planted
  | text | set | backrefNumber | backrefName =>
    refine .atom plain read ?_ ((plantAtom_eq_ok_iff ?_).1 planted)
    all_goals
      intro name same
      cases same

/-- A group: the call for it is the one on its inside. -/
theorem Ends.course_group {expanding : Bool} {tail : List Char} {d' : Draft}
    (ends : Ends ⟨expanding, .atom, '(' :: tail, d⟩ ids rest d') :
    Course ⟨expanding, .atom, '(' :: tail, d⟩ (calls ⟨expanding, .atom, '(' :: tail, d⟩) ids rest
      d' := by
  obtain ⟨id, short, rfl, run⟩ := ends
  obtain ⟨kind, inside, number, body, d₁, d₂, h, head, opens, inner, closes⟩ :=
    atom_group_eq_ok_iff.1 run
  obtain ⟨first, more, d₃, run, planted⟩ := alternatives_eq_ok_iff_runs.1 ⟨h, inner⟩
  have made : calls ⟨expanding, .atom, '(' :: tail, d⟩ = [⟨expanding, .branches, inside, d₁⟩] := by
    show onInside ⟨expanding, .atom, '(' :: tail, d⟩ tail = _
    rw [onInside, head]
    dsimp only
    rw [result?_eq_some_iff.2 opens]
    rfl
  rw [made]
  exact .group head opens run planted closes

/-- **A call that ends does so in one of these ways.** -/
theorem Ends.course (ends : C.Ends ids rest d) : C.Course C.calls ids rest d := by
  obtain ⟨expanding, level, cs, d₀⟩ := C
  cases level with
  | atom =>
    by_cases opens : cs.head? = some '('
    · obtain ⟨tail, rfl⟩ := exists_cons_of_head? opens
      exact ends.course_group
    · exact ends.course_atom opens
  | piece =>
    obtain ⟨id, short, rfl, run⟩ := ends
    obtain ⟨node, rest₁, h, quantifier, rest₂, d₁, d₂, inner, read, planted, rfl, rfl⟩ :=
      piece_eq_ok_iff.1 run
    exact .piece ⟨node, h, rfl, inner⟩ read planted
  | pieces =>
    obtain ⟨h, run⟩ := ends
    rcases stop : atBranchEnd cs with _ | _
    · obtain ⟨id, rest₁, h₁, h₂, others, d₁, first, more, rfl⟩ := (pieces_eq_ok_iff stop).1 run
      have head : Ends ⟨expanding, .piece, cs, d₀⟩ [id] rest₁ d₁ := ⟨id, h₁, rfl, first⟩
      have made : calls ⟨expanding, .pieces, cs, d₀⟩ =
          [⟨expanding, .piece, cs, d₀⟩, ⟨expanding, .pieces, rest₁, d₁⟩] := by
        unfold calls
        dsimp only
        rw [if_neg (Bool.eq_false_iff.1 stop), outcome?_eq_some_iff.2 head]
        rfl
      rw [made]
      exact .next stop head ⟨h₂, more⟩
    · obtain ⟨rfl, rfl, rfl⟩ := (pieces_of_atBranchEnd stop).1 run
      have made : calls ⟨expanding, .pieces, rest, d⟩ = [] := if_pos stop
      rw [made]
      exact .stop stop
  | branches =>
    obtain ⟨first, others, rest₁, h₁, h₂, d₁, rfl, run, further⟩ := ends
    obtain ⟨nodes, d₂, inner, planted⟩ := branch_eq_ok_iff.1 run
    have head : Ends ⟨expanding, .pieces, cs, d₀⟩ nodes rest₁ d₂ := ⟨h₁, inner⟩
    by_cases bar : rest₁.head? = some '|'
    · obtain ⟨tail, rfl⟩ := exists_cons_of_head? bar
      obtain ⟨id, rest₂, h₃, h₄, others', d₃, run', further', rfl⟩ :=
        furtherBranches_eq_ok_iff.1 further
      have made : calls ⟨expanding, .branches, cs, d₀⟩ =
          [⟨expanding, .pieces, cs, d₀⟩, ⟨expanding, .branches, tail, d₁⟩] := by
        unfold calls
        dsimp only
        rw [outcome?_eq_some_iff.2 head, Option.toList_some, List.flatMap_singleton, onFurther,
          result?_eq_some_iff.2 planted]
        rfl
      rw [made]
      exact .more head planted ⟨id, others', rest₂, h₃, h₄, d₃, rfl, run', further'⟩
    · obtain ⟨rfl, rfl, rfl⟩ := (furtherBranches_of_ne bar).1 further
      have made : calls ⟨expanding, .branches, cs, d₀⟩ = [⟨expanding, .pieces, cs, d₀⟩] := by
        unfold calls
        dsimp only
        rw [outcome?_eq_some_iff.2 head, Option.toList_some, List.flatMap_singleton]
        unfold onFurther
        split
        · next same =>
          cases same
          exact absurd rfl bar
        · rfl
      rw [made]
      exact .last head bar planted

/-- **Each of these ways leads to an end.** -/
theorem Course.toEnds (course : C.Course made ids rest d) : C.Ends ids rest d := by
  cases course with
  | atom plain read noMacro built =>
    refine ⟨_, readAtom_length read, rfl, (atom_eq_ok_iff plain).2 ⟨_, read, ?_⟩⟩
    exact (plantAtom_eq_ok_iff noMacro).2 built
  | @expansion cs _ name text _ id _ d₀ _ _ plain read expands inner planted =>
    have found : expandMacro name = some (wholePattern (fun _ => none) text.toList) := by
      rw [expandMacro, expands]
      rfl
    have expanded := wholePattern_eq_ok_iff_runs.2 ⟨_, _, _, inner, planted⟩
    have planted' : plantAtom expandMacro cs (.macroName name) d₀ = .ok id d := by
      rw [plantAtom, found]
      exact adaptExcept_eq_ok_iff.2 expanded
    exact ⟨id, readAtom_length read, rfl, (atom_eq_ok_iff plain).2 ⟨_, read, planted'⟩⟩
  | group head opens inner planted closes =>
    obtain ⟨h, run⟩ := alternatives_eq_ok_iff_runs.2 ⟨_, _, _, inner, planted⟩
    have le : rest.length + 1 ≤ _ := h
    refine ⟨_, Nat.lt_succ_of_le ((Nat.le_of_succ_le le).trans (readGroupHead_length head)), rfl,
      atom_group_eq_ok_iff.2 ?_⟩
    exact ⟨_, _, _, _, _, _, h, head, opens, run, closes⟩
  | @piece _ cs rest₁ rest₂ _ _ _ _ _ _ inner read planted =>
    obtain ⟨node, h, same, run⟩ := inner
    cases same
    have short := readQuantifier_length read
    have le := length_skipMarker (atMarker cs) cs
    have le₁ := length_skipMarker (atQuantifierMarker rest₁) rest₁
    have le₂ := length_skipMarker (atClosingMarker rest₂) rest₂
    have lt : rest₁.length < (skipMarker (atMarker cs) cs).length := h
    have short' : (skipMarker (atClosingMarker rest₂) rest₂).length < cs.length := by omega
    refine ⟨_, short', rfl, piece_eq_ok_iff.2 ?_⟩
    exact ⟨_, _, h, _, _, _, _, run, read, planted, rfl, rfl⟩
  | stop stop => exact ⟨le_rfl, (pieces_of_atBranchEnd stop).2 ⟨rfl, rfl, rfl⟩⟩
  | next going first others =>
    obtain ⟨id, h, same, run⟩ := first
    cases same
    obtain ⟨h', run'⟩ := others
    exact ⟨h'.trans h.le, (pieces_eq_ok_iff going).2 ⟨_, _, h, h', _, _, run, run', rfl⟩⟩
  | last first plain planted =>
    obtain ⟨h, run⟩ := first
    have branch := branch_eq_ok_iff.2 ⟨_, _, run, planted⟩
    exact ⟨_, [], _, h, le_rfl, _, rfl, branch, (furtherBranches_of_ne plain).2 ⟨rfl, rfl, rfl⟩⟩
  | more first planted others =>
    obtain ⟨h, run⟩ := first
    obtain ⟨id', ids', rest₂, h₂, h₃, d₃, same, run', further⟩ := others
    cases same
    have branch := branch_eq_ok_iff.2 ⟨_, _, run, planted⟩
    have le : rest.length ≤ _ := (h₃.trans h₂).trans (Nat.le_succ _)
    refine ⟨_, _, _, h, le, _, rfl, branch, furtherBranches_eq_ok_iff.2 ?_⟩
    exact ⟨_, _, h₂, h₃, _, _, run', further, rfl⟩

/-- A piece without a quantifier and without markers is its atom. -/
theorem Ends.bare {expanding : Bool} {cs : List Char} {id : ℕ} {d' : Draft}
    (ends : Ends ⟨expanding, .atom, cs, d⟩ [id] rest d') (front : atMarker cs = false)
    (between : atQuantifierMarker rest = false) (read : readQuantifier rest = .ok (none, rest))
    (behind : atClosingMarker rest = false) (marking : d'.marking = d.marking) :
    Ends ⟨expanding, .piece, cs, d⟩ [id] rest d' := by
  have same : { d' with marking := d.marking } = d' := by rw [← marking]
  have inner : Ends ⟨expanding, .atom, skipMarker (atMarker cs) cs, d.markIf (atMarker cs)⟩ [id]
      rest d' := by
    rw [front]
    exact ends
  have read' : readQuantifier (skipMarker (atQuantifierMarker rest) rest) = .ok (none, rest) := by
    rw [between]
    exact read
  have piece := (Course.piece inner read' rfl).toEnds
  rw [behind, between, same] at piece
  exact same ▸ piece

/-! ## Induction along calls -/

/-- How far a level is from that of atoms. -/
def rank : Level → ℕ
  | .atom => 0
  | .piece => 1
  | .pieces => 2
  | .branches => 3

/-- What gets smaller from a call to those that it makes: whether macros are known, and then the
text or else the level. -/
def measure (C : Call) : ℕ ×ₗ ℕ :=
  toLex (C.expanding.not.toNat, 4 * C.text.length + rank C.level)

theorem Ends.length_le (ends : C.Ends ids rest d) : rest.length ≤ C.text.length := by
  obtain ⟨expanding, level, cs, d₀⟩ := C
  cases level with
  | atom =>
    obtain ⟨id, short, -, -⟩ := ends
    exact short.le
  | piece =>
    obtain ⟨id, short, -, -⟩ := ends
    exact short.le
  | pieces =>
    obtain ⟨h, -⟩ := ends
    exact h
  | branches =>
    obtain ⟨_, _, _, h, h', -, -, -, -⟩ := ends
    exact h'.trans h

/-- A piece is not empty. -/
theorem Ends.length_lt {expanding : Bool} {cs : List Char} {d' : Draft}
    (ends : Ends ⟨expanding, .piece, cs, d⟩ ids rest d') : rest.length < cs.length := by
  obtain ⟨id, short, -, -⟩ := ends
  exact short

theorem measure_lt {expanding : Bool} {level level' : Level} {cs cs' : List Char} {d d' : Draft}
    (lt : 4 * cs'.length + rank level' < 4 * cs.length + rank level) :
    measure ⟨expanding, level', cs', d'⟩ < measure ⟨expanding, level, cs, d⟩ :=
  Prod.Lex.toLex_lt_toLex.2 (.inr ⟨rfl, lt⟩)

theorem Course.measure_lt (course : C.Course made ids rest d) :
    ∀ C' ∈ made, C'.measure < C.measure := by
  cases course with
  | atom => simp
  | expansion =>
    intro C' mem
    rw [List.mem_singleton.1 mem]
    exact Prod.Lex.toLex_lt_toLex.2 (.inl Nat.zero_lt_one)
  | group head =>
    intro C' mem
    have short := readGroupHead_length head
    rw [List.mem_singleton.1 mem]
    apply Call.measure_lt
    simp only [rank, List.length_cons]
    omega
  | @piece _ cs =>
    intro C' mem
    have short := length_skipMarker (atMarker cs) cs
    rw [List.mem_singleton.1 mem]
    apply Call.measure_lt
    simp only [rank]
    omega
  | stop => simp
  | next _ first =>
    have short := first.length_lt
    simp only [List.forall_mem_cons, List.not_mem_nil, false_implies, implies_true, and_true]
    constructor
    · apply Call.measure_lt
      simp only [rank]
      omega
    · apply Call.measure_lt
      simp only [rank]
      omega
  | last =>
    intro C' mem
    rw [List.mem_singleton.1 mem]
    apply Call.measure_lt
    simp only [rank]
    omega
  | more first =>
    have short := first.length_le
    simp only [List.length_cons] at short
    simp only [List.forall_mem_cons, List.not_mem_nil, false_implies, implies_true, and_true]
    constructor
    · apply Call.measure_lt
      simp only [rank]
      omega
    · apply Call.measure_lt
      simp only [rank]
      omega

/-- **Induction along the calls of a call that ends.** -/
theorem Ends.induct {motive : ∀ {C : Call} {ids : List ℕ} {rest : List Char} {d : Draft},
      C.Ends ids rest d → Prop}
    (step : ∀ {C : Call} {made : List Call} {ids : List ℕ} {rest : List Char} {d : Draft}
      (ends : C.Ends ids rest d), C.calls = made → C.Course made ids rest d →
      (∀ C' ∈ made, ∀ {ids' : List ℕ} {rest' : List Char} {d' : Draft}
        (ends' : C'.Ends ids' rest' d'), motive ends') → motive ends)
    (ends : C.Ends ids rest d) : motive ends := by
  induction h : C.measure using WellFoundedLT.induction generalizing C ids rest d with
  | _ m ih =>
    subst h
    refine step ends rfl ends.course fun C' mem ids' rest' d' ends' => ?_
    exact ih _ (ends.course.measure_lt C' mem) ends' rfl

end Call

end PatternSampler.Reading
