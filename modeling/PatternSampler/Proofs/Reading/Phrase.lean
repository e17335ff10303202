/-
# Phrases

Reading a pattern does two things at once: its text is taken apart into atoms, quantifiers, markers
and parentheses, and nodes are made of what was found.  Here the two are told apart.  A phrase is a
text that has been taken apart, and making nodes of it looks at no text any more.

* `Phrase` : what a text is taken apart into, `Phrase.build` makes nodes of it.
* `Parses` : a text begins with phrases of some kind, and some text is left.
* `Reading.splits` and `Reading.runs_of_parses` : reading is taking apart and then making nodes.
* `Compiled.ofPattern?_eq_ok_iff` : which patterns can be read.
-/
import PatternSampler.Proofs.Outcome
import PatternSampler.Proofs.Reading.Token

namespace PatternSampler

open Reading

/-! ## Taking texts apart -/

/-- Where a piece has markers: in front of it, in front of its quantifier, and behind it. -/
structure Marks where
  leading : Bool
  inner : Bool
  closing : Bool

/-- A text that has been taken apart. -/
inductive Phrase where
  /-- An atom that is neither a group nor a macro. -/
  | atom (a : Atom)
  /-- A group in parentheses. -/
  | group (kind : GroupKind) (body : Phrase)
  /-- A part with the quantifier and the markers around it. -/
  | piece (marks : Marks) (body : Phrase) (quantifier : Option Quantifier)
  /-- Pieces one behind the other. -/
  | branch (pieces : List Phrase)
  /-- One branch or several ones between bars. -/
  | choice (first : Phrase) (more : List Phrase)

/-- Induction over phrases, with the hypothesis for every phrase of a list. -/
theorem Phrase.induct {motive : Phrase → Prop} (atom : ∀ a, motive (atom a))
    (group : ∀ kind body, motive body → motive (group kind body))
    (piece : ∀ marks body quantifier, motive body → motive (piece marks body quantifier))
    (branch : ∀ pieces, (∀ φ ∈ pieces, motive φ) → motive (branch pieces))
    (choice : ∀ first more, motive first → (∀ φ ∈ more, motive φ) → motive (choice first more))
    (φ : Phrase) : motive φ :=
  @Phrase.rec motive (fun φs => ∀ φ ∈ φs, motive φ) atom group piece branch choice
    (fun _ h => absurd h List.not_mem_nil)
    (fun _ _ head tail _ h => by
      rcases List.mem_cons.1 h with rfl | h
      · exact head
      · exact tail _ h)
    φ

/-- A text without its first two characters, if a marker stands there. -/
def skipMarker (present : Bool) (cs : List Char) : List Char :=
  if present then cs.drop 2 else cs

theorem length_skipMarker (present : Bool) (cs : List Char) :
    (skipMarker present cs).length ≤ cs.length := by
  unfold skipMarker
  split
  · rw [List.length_drop]
    omega
  · exact le_rfl

/-- What is read: an atom, a piece, the pieces of a branch, or branches between bars. -/
inductive Level where
  | atom
  | piece
  | pieces
  | branches

/-- For each name of a macro, the phrases that it may stand for. -/
abbrev Expansions := String → Phrase → Prop

/-- A text begins with some phrases, and some text is left behind them.  An atom and a piece are a
single phrase. -/
inductive Parses (M : Expansions) : Level → List Char → List Phrase → List Char → Prop
  | atom {cs rest : List Char} {a : Atom} :
      cs.head? ≠ some '(' → readAtom cs = .ok (a, rest) → (∀ name, a ≠ .macroName name) →
      Parses M .atom cs [.atom a] rest
  | expansion {cs rest : List Char} {name : String} {φ : Phrase} :
      cs.head? ≠ some '(' → readAtom cs = .ok (.macroName name, rest) → M name φ →
      Parses M .atom cs [φ] rest
  | group {tail inside rest : List Char} {kind : GroupKind} {first : Phrase} {more : List Phrase} :
      readGroupHead tail = .ok (kind, inside) →
      Parses M .branches inside (first :: more) (')' :: rest) →
      Parses M .atom ('(' :: tail) [.group kind (.choice first more)] rest
  | piece {cs rest₁ rest₂ rest : List Char} {φ : Phrase} {quantifier : Option Quantifier} :
      Parses M .atom (skipMarker (atMarker cs) cs) [φ] rest₁ →
      readQuantifier (skipMarker (atQuantifierMarker rest₁) rest₁) = .ok (quantifier, rest₂) →
      rest = skipMarker (atClosingMarker rest₂) rest₂ →
      Parses M .piece cs
        [.piece ⟨atMarker cs, atQuantifierMarker rest₁, atClosingMarker rest₂⟩ φ quantifier] rest
  | nil {cs : List Char} : atBranchEnd cs = true → Parses M .pieces cs [] cs
  | cons {cs rest₁ rest : List Char} {φ : Phrase} {φs : List Phrase} :
      atBranchEnd cs = false → Parses M .piece cs [φ] rest₁ → Parses M .pieces rest₁ φs rest →
      Parses M .pieces cs (φ :: φs) rest
  | last {cs rest : List Char} {φs : List Phrase} :
      Parses M .pieces cs φs rest → rest.head? ≠ some '|' →
      Parses M .branches cs [.branch φs] rest
  | more {cs rest₁ rest : List Char} {φs ψs : List Phrase} :
      Parses M .pieces cs φs ('|' :: rest₁) → Parses M .branches rest₁ ψs rest →
      Parses M .branches cs (.branch φs :: ψs) rest

theorem Parses.exists_eq_singleton {M : Expansions} {level : Level} {cs rest : List Char}
    {φs : List Phrase} (h : Parses M level cs φs rest) (single : level = .atom ∨ level = .piece) :
    ∃ φ, φs = [φ] := by
  cases h with
  | atom | expansion | group | piece => exact ⟨_, rfl⟩
  | nil | cons | last | more => simp at single

/-! ## Making nodes -/

/-- Turns marking on if there is a marker. -/
def Draft.markIf (present : Bool) (d : Draft) : Draft :=
  if present then d.mark else d

/-- Marks all nodes from `first` on if there is a marker. -/
def Draft.markFromIf (present : Bool) (first : ℕ) (d : Draft) : Draft :=
  if present then d.markFrom first else d

namespace Phrase

/-- The node of a repetition, if there is a quantifier. -/
def repeated (quantifier : Option Quantifier) (node : ℕ) : Reader ℕ :=
  quantifier.elim (pure node) fun q => plant (.repetition node q.bounds q.sameText)

mutual

/-- Makes nodes of a phrase.  A macro is no atom here; what it stands for has taken its place. -/
def build : Phrase → Reader ℕ
  | atom a => plantAtom (fun _ => none) [] a
  | group kind body => do
    let number ← openGroup kind
    closeGroup kind number (← body.build)
  | piece marks body quantifier => do
    let before ← get
    modify (Draft.markIf marks.leading)
    let node ← body.build
    modify fun d => Draft.markIf marks.inner { d with marking := before.marking }
    let node ← repeated quantifier node
    modify fun d =>
      Draft.markFromIf marks.closing before.tree.size { d with marking := before.marking }
    return node
  | branch pieces => do plantBranch (← buildAll pieces)
  | choice first more => do
    let node ← first.build
    plantAlternatives node (← buildAll more)

/-- Makes nodes of several phrases. -/
def buildAll : List Phrase → Reader (List ℕ)
  | [] => return []
  | φ :: φs => do
    let node ← φ.build
    return node :: (← buildAll φs)

end

variable {d d' : Draft} {ids : List ℕ}

theorem buildAll_nil_eq_ok : buildAll [] d = .ok ids d' ↔ ids = [] ∧ d' = d := by
  rw [buildAll]
  constructor
  · rintro ⟨⟩
    exact ⟨rfl, rfl⟩
  · rintro ⟨rfl, rfl⟩
    rfl

/-- The nodes of phrases are made one phrase after the other. -/
theorem buildAll_cons_eq_ok {φ : Phrase} {φs : List Phrase} :
    buildAll (φ :: φs) d = .ok ids d' ↔
      ∃ id d₁ others, φ.build d = .ok id d₁ ∧ buildAll φs d₁ = .ok others d' ∧
        ids = id :: others := by
  rw [buildAll, bind_eq_ok_iff]
  constructor
  · rintro ⟨id, d₁, run, rest⟩
    obtain ⟨others, d₂, run', same⟩ := bind_eq_ok_iff.1 rest
    cases same
    exact ⟨id, d₁, others, run, run', rfl⟩
  · rintro ⟨id, d₁, others, run, run', rfl⟩
    exact ⟨id, d₁, run, bind_eq_ok_iff.2 ⟨others, d', run', rfl⟩⟩

theorem exists_build_of_buildAll {φ : Phrase} (run : buildAll [φ] d = .ok ids d') :
    ∃ id, ids = [id] ∧ φ.build d = .ok id d' := by
  obtain ⟨id, d₁, others, built, nothing, rfl⟩ := buildAll_cons_eq_ok.1 run
  obtain ⟨rfl, rfl⟩ := buildAll_nil_eq_ok.1 nothing
  exact ⟨id, rfl, built⟩

theorem buildAll_singleton_eq_ok {φ : Phrase} {id : ℕ} :
    buildAll [φ] d = .ok [id] d' ↔ φ.build d = .ok id d' := by
  constructor
  · intro run
    obtain ⟨_, ⟨⟩, built⟩ := exists_build_of_buildAll run
    exact built
  · intro run
    exact buildAll_cons_eq_ok.2 ⟨id, d', [], run, buildAll_nil_eq_ok.2 ⟨rfl, rfl⟩, rfl⟩

/-- The node of a branch is added behind those of its pieces. -/
theorem build_branch_eq_ok {pieces : List Phrase} {id : ℕ} :
    (branch pieces).build d = .ok id d' ↔
      ∃ nodes d₁, buildAll pieces d = .ok nodes d₁ ∧ plantBranch nodes d₁ = .ok id d' := by
  rw [build, bind_eq_ok_iff]

/-- The draft after a piece is the one after its repetition, but for the marks. -/
theorem build_piece_eq_ok {marks : Marks} {body : Phrase} {quantifier : Option Quantifier}
    {id : ℕ} : (piece marks body quantifier).build d = .ok id d' ↔
      ∃ node d₁ d₂, body.build (d.markIf marks.leading) = .ok node d₁ ∧
        repeated quantifier node (Draft.markIf marks.inner { d₁ with marking := d.marking }) =
          .ok id d₂ ∧
        d' = Draft.markFromIf marks.closing d.tree.size { d₂ with marking := d.marking } := by
  rw [build]
  constructor
  · intro run
    obtain ⟨_, _, ⟨⟩, run⟩ := bind_eq_ok_iff.1 run
    obtain ⟨_, _, ⟨⟩, run⟩ := bind_eq_ok_iff.1 run
    obtain ⟨node, d₁, inner, run⟩ := bind_eq_ok_iff.1 run
    obtain ⟨_, _, ⟨⟩, run⟩ := bind_eq_ok_iff.1 run
    obtain ⟨_, d₂, outer, run⟩ := bind_eq_ok_iff.1 run
    obtain ⟨_, _, ⟨⟩, run⟩ := bind_eq_ok_iff.1 run
    cases run
    exact ⟨node, d₁, d₂, inner, outer, rfl⟩
  · rintro ⟨node, d₁, d₂, inner, outer, rfl⟩
    refine bind_eq_ok_iff.2 ⟨_, _, rfl, bind_eq_ok_iff.2 ⟨_, _, rfl, ?_⟩⟩
    refine bind_eq_ok_iff.2 ⟨_, _, inner, bind_eq_ok_iff.2 ⟨_, _, rfl, ?_⟩⟩
    exact bind_eq_ok_iff.2 ⟨_, _, outer, rfl⟩

/-- The inside of a group is made between its opening and its closing. -/
theorem build_group_eq_ok {kind : GroupKind} {body : Phrase} {id : ℕ} :
    (group kind body).build d = .ok id d' ↔
      ∃ number inner d₁ d₂, openGroup kind d = .ok number d₁ ∧ body.build d₁ = .ok inner d₂ ∧
        closeGroup kind number inner d₂ = .ok id d' := by
  rw [build]
  constructor
  · intro run
    obtain ⟨number, d₁, opens, run⟩ := bind_eq_ok_iff.1 run
    obtain ⟨inner, d₂, built, closes⟩ := bind_eq_ok_iff.1 run
    exact ⟨number, inner, d₁, d₂, opens, built, closes⟩
  · rintro ⟨number, inner, d₁, d₂, opens, built, closes⟩
    exact bind_eq_ok_iff.2 ⟨number, d₁, opens, bind_eq_ok_iff.2 ⟨inner, d₂, built, closes⟩⟩

/-- The node of a choice is added behind those of its branches. -/
theorem build_choice_eq_ok {first : Phrase} {more : List Phrase} {id : ℕ} :
    (choice first more).build d = .ok id d' ↔
      ∃ node others d₁ d₂, first.build d = .ok node d₁ ∧ buildAll more d₁ = .ok others d₂ ∧
        plantAlternatives node others d₂ = .ok id d' := by
  rw [build]
  constructor
  · intro run
    obtain ⟨node, d₁, head, run⟩ := bind_eq_ok_iff.1 run
    obtain ⟨others, d₂, tail, planted⟩ := bind_eq_ok_iff.1 run
    exact ⟨node, others, d₁, d₂, head, tail, planted⟩
  · rintro ⟨node, others, d₁, d₂, head, tail, planted⟩
    exact bind_eq_ok_iff.2 ⟨node, d₁, head, bind_eq_ok_iff.2 ⟨others, d₂, tail, planted⟩⟩

end Phrase

/-! ## Reading in two steps -/

namespace Reading

variable {macros : Macros} {M : Expansions} {d d' : Draft}

/-- What the readers of macros do is to make nodes of the phrases that the macros stand for. -/
def Stands (macros : Macros) (M : Expansions) : Prop :=
  ∀ name (d d' : Draft) (id : ℕ), (∃ reader, macros name = some reader ∧ reader d = .ok id d') ↔
    ∃ φ, M name φ ∧ φ.build d = .ok id d'

/-- Where an atom stands and what macros mean does not count for other atoms. -/
theorem plantAtom_eq_ok_iff {start : List Char} {a : Atom} (plain : ∀ name, a ≠ .macroName name)
    {id : ℕ} : plantAtom macros start a d = .ok id d' ↔ (Phrase.atom a).build d = .ok id d' := by
  rw [Phrase.build]
  cases a with
  | text chars => exact Iff.rfl
  | set s => exact Iff.rfl
  | backrefNumber number =>
    rw [plantAtom, plantAtom, bind_eq_ok_iff, bind_eq_ok_iff]
    refine exists_congr fun d₀ => exists_congr fun d₁ => and_congr_right fun _ => ?_
    cases d₀.groupOfNumber? number with
    | none => exact iff_of_false nofun nofun
    | some target => exact Iff.rfl
  | backrefName name =>
    rw [plantAtom, plantAtom, bind_eq_ok_iff, bind_eq_ok_iff]
    refine exists_congr fun d₀ => exists_congr fun d₁ => and_congr_right fun _ => ?_
    cases d₀.groupOfName? name with
    | none => exact iff_of_false nofun nofun
    | some target => exact Iff.rfl
  | macroName name => exact absurd rfl (plain name)

/-- A macro adds the nodes of a phrase that it stands for. -/
theorem plantAtom_macro_eq_ok_iff (stands : Stands macros M) {start : List Char} {name : String}
    {id : ℕ} : plantAtom macros start (.macroName name) d = .ok id d' ↔
      ∃ φ, M name φ ∧ φ.build d = .ok id d' := by
  rw [← stands, plantAtom]
  cases macros name with
  | none => exact iff_of_false nofun (by simp)
  | some reader =>
    constructor
    · intro run
      exact ⟨reader, rfl, adaptExcept_eq_ok_iff.1 run⟩
    · rintro ⟨_, ⟨⟩, run⟩
      exact adaptExcept_eq_ok_iff.2 run

/-! ### One reader after the other -/

/-- An atom that is no group. -/
theorem atom_eq_ok_iff {cs : List Char} (plain : cs.head? ≠ some '(') {id : ℕ}
    {rest : List Char} {short : rest.length < cs.length} :
    atom macros cs d = .ok (id, ⟨rest, short⟩) d' ↔
      ∃ a, readAtom cs = .ok (a, rest) ∧ plantAtom macros cs a d = .ok id d' := by
  generalize eq : atom macros cs = reader
  unfold atom at eq
  split at eq
  · exact absurd rfl plain
  · split at eq <;> subst eq
    · next failed =>
      rw [failed]
      exact iff_of_false (by rintro ⟨⟩) (by simp)
    · next a left read =>
      rw [bind_eq_ok_iff]
      constructor
      · rintro ⟨id, d₁, planted, same⟩
        cases same
        exact ⟨a, read, planted⟩
      · rintro ⟨_, same, planted⟩
        obtain ⟨rfl, rfl⟩ := Prod.mk.inj (Except.ok.inj (read.symm.trans same))
        exact ⟨id, d', planted, rfl⟩

/-- A group. -/
theorem atom_group_eq_ok_iff {tail rest : List Char} {id : ℕ}
    {short : rest.length < ('(' :: tail).length} :
    atom macros ('(' :: tail) d = .ok (id, ⟨rest, short⟩) d' ↔
      ∃ kind inside number body d₁ d₂ h, readGroupHead tail = .ok (kind, inside) ∧
        openGroup kind d = .ok number d₁ ∧
        alternatives macros inside d₁ = .ok (body, ⟨')' :: rest, h⟩) d₂ ∧
        closeGroup kind number body d₂ = .ok id d' := by
  generalize eq : atom macros ('(' :: tail) = reader
  rw [atom] at eq
  split at eq <;> subst eq
  · next failed =>
    rw [failed]
    exact iff_of_false (by rintro ⟨⟩) (by simp)
  · next kind inside head =>
    constructor
    · intro run
      obtain ⟨number, d₁, opened, run⟩ := bind_eq_ok_iff.1 run
      obtain ⟨⟨body, left, h⟩, d₂, reader, run₁, eq, run⟩ := exists_of_bind_eq_ok run
      dsimp only at eq
      split at eq <;> subst eq
      · obtain ⟨_, _, closes, run⟩ := bind_eq_ok_iff.1 run
        cases run
        exact ⟨kind, inside, number, body, d₁, d₂, h, head, opened, run₁, closes⟩
      · cases run
    · rintro ⟨_, _, number, body, d₁, d₂, h, same, opened, run₁, closes⟩
      obtain ⟨rfl, rfl⟩ := Prod.mk.inj (Except.ok.inj (head.symm.trans same))
      refine bind_eq_ok_iff.2 ⟨number, d₁, opened, bind_eq_ok_iff.2 ⟨_, d₂, run₁, ?_⟩⟩
      exact bind_eq_ok_iff.2 ⟨id, d', closes, rfl⟩

/-- A quantifier is read, and its node added. -/
theorem quantified_eq_ok_iff {node id : ℕ} {cs rest : List Char} {h : rest.length ≤ cs.length} :
    quantified node cs d = .ok (id, ⟨rest, h⟩) d' ↔
      ∃ quantifier, readQuantifier cs = .ok (quantifier, rest) ∧
        Phrase.repeated quantifier node d = .ok id d' := by
  generalize eq : quantified node cs = reader
  unfold quantified at eq
  split at eq <;> subst eq
  · next failed =>
    rw [failed]
    exact iff_of_false nofun (by simp)
  · next left read =>
    constructor
    · rintro ⟨⟩
      exact ⟨none, read, rfl⟩
    · rintro ⟨_, same, run⟩
      obtain ⟨rfl, rfl⟩ := Prod.mk.inj (Except.ok.inj (read.symm.trans same))
      cases run
      rfl
  · next q left read =>
    rw [bind_eq_ok_iff]
    constructor
    · rintro ⟨_, _, planted, same⟩
      cases same
      exact ⟨some q, read, planted⟩
    · rintro ⟨_, same, planted⟩
      obtain ⟨rfl, rfl⟩ := Prod.mk.inj (Except.ok.inj (read.symm.trans same))
      exact ⟨id, d', planted, rfl⟩

/-- A marker is skipped, and marking turned on. -/
theorem takeMarker_eq_ok_iff {present : Bool} {cs rest : List Char}
    {h : rest.length ≤ cs.length} : takeMarker present cs d = .ok ⟨rest, h⟩ d' ↔
      rest = skipMarker present cs ∧ d' = d.markIf present := by
  cases present with
  | false =>
    constructor
    · rintro ⟨⟩
      exact ⟨rfl, rfl⟩
    · rintro ⟨rfl, rfl⟩
      rfl
  | true =>
    constructor
    · rintro ⟨⟩
      exact ⟨rfl, rfl⟩
    · rintro ⟨rfl, rfl⟩
      rfl

/-- A marker at the end of a branch is skipped, and what stands in front of it marked. -/
theorem takeClosingMarker_eq_ok_iff {first : ℕ} {cs rest : List Char}
    {h : rest.length ≤ cs.length} : takeClosingMarker first cs d = .ok ⟨rest, h⟩ d' ↔
      rest = skipMarker (atClosingMarker cs) cs ∧
        d' = d.markFromIf (atClosingMarker cs) first := by
  unfold takeClosingMarker
  cases atClosingMarker cs with
  | false =>
    constructor
    · rintro ⟨⟩
      exact ⟨rfl, rfl⟩
    · rintro ⟨rfl, rfl⟩
      rfl
  | true =>
    constructor
    · rintro ⟨⟩
      exact ⟨rfl, rfl⟩
    · rintro ⟨rfl, rfl⟩
      rfl

/-- A piece. -/
theorem piece_eq_ok_iff {cs : List Char} {id : ℕ} {rest : List Char}
    {short : rest.length < cs.length} : piece macros cs d = .ok (id, ⟨rest, short⟩) d' ↔
      ∃ node rest₁ h quantifier rest₂ d₁ d₂,
        atom macros (skipMarker (atMarker cs) cs) (d.markIf (atMarker cs)) =
          .ok (node, ⟨rest₁, h⟩) d₁ ∧
        readQuantifier (skipMarker (atQuantifierMarker rest₁) rest₁) = .ok (quantifier, rest₂) ∧
        Phrase.repeated quantifier node
          (Draft.markIf (atQuantifierMarker rest₁) { d₁ with marking := d.marking }) = .ok id d₂ ∧
        rest = skipMarker (atClosingMarker rest₂) rest₂ ∧
        d' = Draft.markFromIf (atClosingMarker rest₂) d.tree.size
          { d₂ with marking := d.marking } := by
  rw [piece]
  constructor
  · intro run
    obtain ⟨_, _, ⟨⟩, run⟩ := bind_eq_ok_iff.1 run
    obtain ⟨⟨body, le⟩, _, taken, run⟩ := bind_eq_ok_iff.1 run
    obtain ⟨rfl, rfl⟩ := takeMarker_eq_ok_iff.1 taken
    obtain ⟨⟨node, rest₁, h⟩, d₁, inner, run⟩ := bind_eq_ok_iff.1 run
    obtain ⟨_, _, ⟨⟩, run⟩ := bind_eq_ok_iff.1 run
    obtain ⟨⟨body', le'⟩, _, taken', run⟩ := bind_eq_ok_iff.1 run
    obtain ⟨rfl, rfl⟩ := takeMarker_eq_ok_iff.1 taken'
    obtain ⟨⟨node', rest₂, h'⟩, d₂, outer, run⟩ := bind_eq_ok_iff.1 run
    obtain ⟨quantifier, read, planted⟩ := quantified_eq_ok_iff.1 outer
    obtain ⟨_, _, ⟨⟩, run⟩ := bind_eq_ok_iff.1 run
    obtain ⟨⟨rest₃, h''⟩, d₃, taken'', run⟩ := bind_eq_ok_iff.1 run
    cases run
    obtain ⟨eq, rfl⟩ := takeClosingMarker_eq_ok_iff.1 taken''
    exact ⟨node, rest₁, h, quantifier, rest₂, d₁, d₂, inner, read, planted, eq, rfl⟩
  · rintro ⟨node, rest₁, h, quantifier, rest₂, d₁, d₂, inner, read, planted, eq, rfl⟩
    have le := length_skipMarker (atMarker cs) cs
    have le' := length_skipMarker (atQuantifierMarker rest₁) rest₁
    have le'' : rest.length ≤ rest₂.length := eq ▸ length_skipMarker (atClosingMarker rest₂) rest₂
    refine bind_eq_ok_iff.2 ⟨d, d, rfl, ?_⟩
    refine bind_eq_ok_iff.2 ⟨⟨_, le⟩, _, takeMarker_eq_ok_iff.2 ⟨rfl, rfl⟩, ?_⟩
    refine bind_eq_ok_iff.2 ⟨_, _, inner, bind_eq_ok_iff.2 ⟨_, _, rfl, ?_⟩⟩
    refine bind_eq_ok_iff.2 ⟨⟨_, le'⟩, _, takeMarker_eq_ok_iff.2 ⟨rfl, rfl⟩, ?_⟩
    refine bind_eq_ok_iff.2 ⟨(id, ⟨rest₂, readQuantifier_length read⟩), d₂,
      quantified_eq_ok_iff.2 ⟨quantifier, read, planted⟩, bind_eq_ok_iff.2 ⟨_, _, rfl, ?_⟩⟩
    exact bind_eq_ok_iff.2 ⟨⟨rest, le''⟩, _, takeClosingMarker_eq_ok_iff.2 ⟨eq, rfl⟩, rfl⟩

/-- Where a branch ends there are no pieces. -/
theorem pieces_of_atBranchEnd {cs : List Char} (stop : atBranchEnd cs = true) {ids : List ℕ}
    {rest : List Char} {h : rest.length ≤ cs.length} :
    pieces macros cs d = .ok (ids, ⟨rest, h⟩) d' ↔ ids = [] ∧ rest = cs ∧ d' = d := by
  rw [pieces, if_pos stop]
  constructor
  · rintro ⟨⟩
    exact ⟨rfl, rfl, rfl⟩
  · rintro ⟨rfl, rfl, rfl⟩
    rfl

/-- Elsewhere there is one, and then the others. -/
theorem pieces_eq_ok_iff {cs : List Char} (going : atBranchEnd cs = false) {ids : List ℕ}
    {rest : List Char} {short : rest.length ≤ cs.length} :
    pieces macros cs d = .ok (ids, ⟨rest, short⟩) d' ↔
      ∃ id rest₁ h h' others d₁, piece macros cs d = .ok (id, ⟨rest₁, h⟩) d₁ ∧
        pieces macros rest₁ d₁ = .ok (others, ⟨rest, h'⟩) d' ∧ ids = id :: others := by
  rw [pieces, if_neg (Bool.eq_false_iff.1 going)]
  constructor
  · intro run
    obtain ⟨⟨id, rest₁, h⟩, d₁, first, run⟩ := bind_eq_ok_iff.1 run
    obtain ⟨⟨others, rest₂, h'⟩, d₂, more, run⟩ := bind_eq_ok_iff.1 run
    cases run
    exact ⟨id, rest₁, h, h', others, d₁, first, more, rfl⟩
  · rintro ⟨id, rest₁, h, h', others, d₁, first, more, rfl⟩
    exact bind_eq_ok_iff.2 ⟨_, _, first, bind_eq_ok_iff.2 ⟨_, _, more, rfl⟩⟩

theorem branch_eq_ok_iff {cs : List Char} {id : ℕ} {rest : Rest cs} :
    branch macros cs d = .ok (id, rest) d' ↔
      ∃ ids d₁, pieces macros cs d = .ok (ids, rest) d₁ ∧ plantBranch ids d₁ = .ok id d' := by
  rw [branch]
  constructor
  · intro run
    obtain ⟨⟨ids, rest₁⟩, d₁, inner, run⟩ := bind_eq_ok_iff.1 run
    obtain ⟨_, _, planted, run⟩ := bind_eq_ok_iff.1 run
    cases run
    exact ⟨ids, d₁, inner, planted⟩
  · rintro ⟨ids, d₁, inner, planted⟩
    exact bind_eq_ok_iff.2 ⟨_, _, inner, bind_eq_ok_iff.2 ⟨_, _, planted, rfl⟩⟩

/-- Without a bar there are no further branches. -/
theorem furtherBranches_of_ne {cs : List Char} (ne : cs.head? ≠ some '|') {ids : List ℕ}
    {rest : List Char} {h : rest.length ≤ cs.length} :
    furtherBranches macros cs d = .ok (ids, ⟨rest, h⟩) d' ↔ ids = [] ∧ rest = cs ∧ d' = d := by
  have here : furtherBranches macros cs = return ([], ⟨cs, Nat.le_refl _⟩) := by
    unfold furtherBranches
    split
    · exact absurd rfl ne
    · rfl
  rw [here]
  constructor
  · rintro ⟨⟩
    exact ⟨rfl, rfl, rfl⟩
  · rintro ⟨rfl, rfl, rfl⟩
    rfl

/-- Behind a bar there is one, and then the others. -/
theorem furtherBranches_eq_ok_iff {tail rest : List Char} {ids : List ℕ}
    {short : rest.length ≤ ('|' :: tail).length} :
    furtherBranches macros ('|' :: tail) d = .ok (ids, ⟨rest, short⟩) d' ↔
      ∃ id rest₁ h h' others d₁, branch macros tail d = .ok (id, ⟨rest₁, h⟩) d₁ ∧
        furtherBranches macros rest₁ d₁ = .ok (others, ⟨rest, h'⟩) d' ∧ ids = id :: others := by
  rw [furtherBranches]
  constructor
  · intro run
    obtain ⟨⟨id, rest₁, h⟩, d₁, first, run⟩ := bind_eq_ok_iff.1 run
    obtain ⟨⟨others, rest₂, h'⟩, d₂, more, run⟩ := bind_eq_ok_iff.1 run
    cases run
    exact ⟨id, rest₁, h, h', others, d₁, first, more, rfl⟩
  · rintro ⟨id, rest₁, h, h', others, d₁, first, more, rfl⟩
    exact bind_eq_ok_iff.2 ⟨_, _, first, bind_eq_ok_iff.2 ⟨_, _, more, rfl⟩⟩

theorem alternatives_eq_ok_iff {cs rest : List Char} {id : ℕ} {short : rest.length ≤ cs.length} :
    alternatives macros cs d = .ok (id, ⟨rest, short⟩) d' ↔
      ∃ node rest₁ h h' others d₁ d₂, branch macros cs d = .ok (node, ⟨rest₁, h⟩) d₁ ∧
        furtherBranches macros rest₁ d₁ = .ok (others, ⟨rest, h'⟩) d₂ ∧
        plantAlternatives node others d₂ = .ok id d' := by
  rw [alternatives]
  constructor
  · intro run
    obtain ⟨⟨node, rest₁, h⟩, d₁, first, run⟩ := bind_eq_ok_iff.1 run
    obtain ⟨⟨others, rest₂, h'⟩, d₂, more, run⟩ := bind_eq_ok_iff.1 run
    obtain ⟨_, _, planted, run⟩ := bind_eq_ok_iff.1 run
    cases run
    exact ⟨node, rest₁, h, h', others, d₁, d₂, first, more, planted⟩
  · rintro ⟨node, rest₁, h, h', others, d₁, d₂, first, more, planted⟩
    refine bind_eq_ok_iff.2 ⟨_, _, first, bind_eq_ok_iff.2 ⟨_, _, more, ?_⟩⟩
    exact bind_eq_ok_iff.2 ⟨_, _, planted, rfl⟩

/-! ### All readers -/

/-- The reader of some kind of phrases ends, with some nodes and some text left. -/
def Runs (macros : Macros) : Level → List Char → List ℕ → List Char → Draft → Draft → Prop
  | .atom, cs, ids, rest, d, d' =>
    ∃ id short, ids = [id] ∧ atom macros cs d = .ok (id, ⟨rest, short⟩) d'
  | .piece, cs, ids, rest, d, d' =>
    ∃ id short, ids = [id] ∧ piece macros cs d = .ok (id, ⟨rest, short⟩) d'
  | .pieces, cs, ids, rest, d, d' => ∃ h, pieces macros cs d = .ok (ids, ⟨rest, h⟩) d'
  | .branches, cs, ids, rest, d, d' =>
    ∃ first others rest₁ h h' d₁, ids = first :: others ∧
      branch macros cs d = .ok (first, ⟨rest₁, h⟩) d₁ ∧
      furtherBranches macros rest₁ d₁ = .ok (others, ⟨rest, h'⟩) d'

/-- What a reader does can be done in two steps. -/
def Splits (macros : Macros) (M : Expansions) (level : Level) (cs : List Char) : Prop :=
  ∀ (ids : List ℕ) (rest : List Char) (d d' : Draft), Runs macros level cs ids rest d d' →
    ∃ φs, Parses M level cs φs rest ∧ Phrase.buildAll φs d = .ok ids d'

/-- An atom is read as a phrase, and its nodes are made of that. -/
theorem splits_atom (stands : Stands macros M) {cs : List Char}
    (shorter : ∀ cs' : List Char, cs'.length < cs.length → Splits macros M .branches cs') :
    Splits macros M .atom cs := by
  rintro _ rest d d' ⟨id, short, rfl, run⟩
  by_cases opens : cs.head? = some '('
  · obtain ⟨tail, rfl⟩ : ∃ tail, cs = '(' :: tail := by
      cases cs with
      | nil => cases opens
      | cons c tail => exact ⟨tail, by rw [Option.some.inj opens]⟩
    obtain ⟨kind, inside, number, body, d₁, d₂, h, head, opened, inner, closes⟩ :=
      atom_group_eq_ok_iff.1 run
    obtain ⟨first, rest₁, h₁, h₂, others, d₃, d₄, run₁, run₂, planted⟩ :=
      alternatives_eq_ok_iff.1 inner
    have lt : inside.length < ('(' :: tail).length := Nat.lt_succ_of_le (readGroupHead_length head)
    obtain ⟨φs, parses, built⟩ := shorter inside lt _ _ _ _
      ⟨first, others, rest₁, h₁, h₂, d₃, rfl, run₁, run₂⟩
    obtain - | ⟨φ, φs⟩ := φs
    · cases (Phrase.buildAll_nil_eq_ok.1 built).1
    obtain ⟨_, _, _, here, there, same⟩ := Phrase.buildAll_cons_eq_ok.1 built
    cases same
    refine ⟨[.group kind (.choice φ φs)], .group head parses, ?_⟩
    apply Phrase.buildAll_singleton_eq_ok.2
    apply Phrase.build_group_eq_ok.2
    exact ⟨number, body, d₁, d₂, opened,
      Phrase.build_choice_eq_ok.2 ⟨_, _, _, _, here, there, planted⟩, closes⟩
  · obtain ⟨a, read, planted⟩ := (atom_eq_ok_iff opens).1 run
    by_cases plain : ∀ name, a ≠ .macroName name
    · refine ⟨[.atom a], .atom opens read plain, ?_⟩
      exact Phrase.buildAll_singleton_eq_ok.2 ((plantAtom_eq_ok_iff plain).1 planted)
    · obtain ⟨name, rfl⟩ := by simpa using plain
      obtain ⟨φ, means, built⟩ := (plantAtom_macro_eq_ok_iff stands).1 planted
      exact ⟨[φ], .expansion opens read means, Phrase.buildAll_singleton_eq_ok.2 built⟩

/-- A piece is read as a phrase if its atom is. -/
theorem splits_piece {cs : List Char}
    (atoms : ∀ cs' : List Char, cs'.length ≤ cs.length → Splits macros M .atom cs') :
    Splits macros M .piece cs := by
  rintro _ rest d d' ⟨id, short, rfl, run⟩
  obtain ⟨node, rest₁, h, quantifier, rest₂, d₁, d₂, inner, read, planted, eq, rfl⟩ :=
    piece_eq_ok_iff.1 run
  have le := length_skipMarker (atMarker cs) cs
  obtain ⟨φs, parses, built⟩ := atoms _ le _ _ _ _ ⟨node, h, rfl, inner⟩
  obtain ⟨φ, rfl⟩ := parses.exists_eq_singleton (.inl rfl)
  refine ⟨_, .piece parses read eq, ?_⟩
  apply Phrase.buildAll_singleton_eq_ok.2
  apply Phrase.build_piece_eq_ok.2
  exact ⟨node, d₁, d₂, Phrase.buildAll_singleton_eq_ok.1 built, planted, rfl⟩

/-- Pieces are read as phrases if the first one is, and the others. -/
theorem splits_pieces {cs : List Char} (here : Splits macros M .piece cs)
    (shorter : ∀ cs' : List Char, cs'.length < cs.length → Splits macros M .pieces cs') :
    Splits macros M .pieces cs := by
  rintro ids rest d d' ⟨h, run⟩
  rcases stop : atBranchEnd cs with - | -
  · obtain ⟨id, rest₁, h₁, h₂, others, d₁, first, more, rfl⟩ := (pieces_eq_ok_iff stop).1 run
    obtain ⟨φs, parses, built⟩ := here _ _ _ _ ⟨id, h₁, rfl, first⟩
    obtain ⟨φ, rfl⟩ := parses.exists_eq_singleton (.inr rfl)
    obtain ⟨ψs, parses', built'⟩ := shorter rest₁ h₁ _ _ _ _ ⟨h₂, more⟩
    refine ⟨φ :: ψs, .cons stop parses parses', ?_⟩
    apply Phrase.buildAll_cons_eq_ok.2
    exact ⟨id, d₁, others, Phrase.buildAll_singleton_eq_ok.1 built, built', rfl⟩
  · obtain ⟨rfl, rfl, rfl⟩ := (pieces_of_atBranchEnd stop).1 run
    exact ⟨[], .nil stop, Phrase.buildAll_nil_eq_ok.2 ⟨rfl, rfl⟩⟩

/-- Branches are read as phrases if the pieces of the first one are, and the others. -/
theorem splits_branches {cs : List Char} (here : Splits macros M .pieces cs)
    (shorter : ∀ cs' : List Char, cs'.length < cs.length → Splits macros M .branches cs') :
    Splits macros M .branches cs := by
  rintro _ rest d d' ⟨first, others, rest₁, h₁, h₂, d₁, rfl, run, further⟩
  obtain ⟨nodes, d₂, inner, planted⟩ := branch_eq_ok_iff.1 run
  obtain ⟨φs, parses, built⟩ := here _ _ _ _ ⟨h₁, inner⟩
  have head : (Phrase.branch φs).build d = .ok first d₁ :=
    Phrase.build_branch_eq_ok.2 ⟨nodes, d₂, built, planted⟩
  by_cases bar : rest₁.head? = some '|'
  · obtain ⟨tail, rfl⟩ : ∃ tail, rest₁ = '|' :: tail := by
      cases rest₁ with
      | nil => cases bar
      | cons c tail => exact ⟨tail, by rw [Option.some.inj bar]⟩
    obtain ⟨id, rest₂, h₃, h₄, others', d₃, run', further', rfl⟩ :=
      furtherBranches_eq_ok_iff.1 further
    have lt : tail.length < cs.length := h₁
    obtain ⟨ψs, parses', built'⟩ := shorter tail lt _ _ _ _
      ⟨id, others', rest₂, h₃, h₄, d₃, rfl, run', further'⟩
    refine ⟨.branch φs :: ψs, .more parses parses', ?_⟩
    exact Phrase.buildAll_cons_eq_ok.2 ⟨first, d₁, _, head, built', rfl⟩
  · obtain ⟨rfl, rfl, rfl⟩ := (furtherBranches_of_ne bar).1 further
    exact ⟨[.branch φs], .last parses bar, Phrase.buildAll_singleton_eq_ok.2 head⟩

/-- What is read can be taken apart, and what is made of it is what the reader makes. -/
theorem splits (stands : Stands macros M) (level : Level) (cs : List Char) :
    Splits macros M level cs := by
  induction length : cs.length using Nat.strong_induction_on generalizing cs level with
  | _ n ih =>
    subst length
    have shorter (level : Level) (cs' : List Char) (lt : cs'.length < cs.length) :
        Splits macros M level cs' := ih cs'.length lt level cs' rfl
    have atoms (cs' : List Char) (le : cs'.length ≤ cs.length) : Splits macros M .atom cs' :=
      splits_atom stands fun cs'' lt => shorter .branches cs'' (lt.trans_le le)
    have piece : Splits macros M .piece cs := splits_piece atoms
    have pieces : Splits macros M .pieces cs := splits_pieces piece (shorter .pieces)
    cases level with
    | atom => exact atoms cs le_rfl
    | piece => exact piece
    | pieces => exact pieces
    | branches => exact splits_branches pieces (shorter .branches)

/-- What can be taken apart is read. -/
theorem runs_of_parses (stands : Stands macros M) {level : Level} {cs rest : List Char}
    {φs : List Phrase} (parses : Parses M level cs φs rest) {ids : List ℕ} {d d' : Draft}
    (built : Phrase.buildAll φs d = .ok ids d') : Runs macros level cs ids rest d d' := by
  induction parses generalizing ids d d' with
  | atom opens read plain =>
    obtain ⟨id, rfl, run⟩ := Phrase.exists_build_of_buildAll built
    refine ⟨id, readAtom_length read, rfl, (atom_eq_ok_iff opens).2 ⟨_, read, ?_⟩⟩
    exact (plantAtom_eq_ok_iff plain).2 run
  | expansion opens read means =>
    obtain ⟨id, rfl, run⟩ := Phrase.exists_build_of_buildAll built
    refine ⟨id, readAtom_length read, rfl, (atom_eq_ok_iff opens).2 ⟨_, read, ?_⟩⟩
    exact (plantAtom_macro_eq_ok_iff stands).2 ⟨_, means, run⟩
  | group head _ ih =>
    obtain ⟨id, rfl, run⟩ := Phrase.exists_build_of_buildAll built
    obtain ⟨number, inner, d₂, d₃, opens, run, closes⟩ := Phrase.build_group_eq_ok.1 run
    obtain ⟨node, others, d₄, d₅, first, more, planted⟩ := Phrase.build_choice_eq_ok.1 run
    obtain ⟨_, _, rest₁, h₁, h₂, d₆, same, branch, further⟩ :=
      ih (Phrase.buildAll_cons_eq_ok.2 ⟨node, d₄, others, first, more, rfl⟩)
    cases same
    have left := h₂.trans h₁
    have inside := readGroupHead_length head
    refine ⟨id, ?_, rfl, atom_group_eq_ok_iff.2 ⟨_, _, number, inner, d₂, d₃, left, head, opens, ?_,
      closes⟩⟩
    · simp only [List.length_cons] at left ⊢
      omega
    · exact alternatives_eq_ok_iff.2 ⟨_, _, h₁, h₂, _, _, _, branch, further, planted⟩
  | piece parses read eq ih =>
    obtain ⟨id, rfl, run⟩ := Phrase.exists_build_of_buildAll built
    obtain ⟨node, d₂, d₃, inner, planted, rfl⟩ := Phrase.build_piece_eq_ok.1 run
    obtain ⟨_, h, same, run⟩ := ih (Phrase.buildAll_singleton_eq_ok.2 inner)
    cases same
    refine ⟨id, ?_, rfl, piece_eq_ok_iff.2 ⟨node, _, h, _, _, d₂, d₃, run, read, planted, eq, rfl⟩⟩
    -- what is left gets shorter with the atom and no longer afterwards
    calc
      _ ≤ _ := eq ▸ length_skipMarker _ _
      _ ≤ _ := readQuantifier_length read
      _ ≤ _ := length_skipMarker _ _
      _ < _ := h
      _ ≤ _ := length_skipMarker _ _
  | nil stop =>
    obtain ⟨rfl, rfl⟩ := Phrase.buildAll_nil_eq_ok.1 built
    exact ⟨le_rfl, (pieces_of_atBranchEnd stop).2 ⟨rfl, rfl, rfl⟩⟩
  | cons going _ _ ih ih' =>
    obtain ⟨id, d₁, others, run, more, rfl⟩ := Phrase.buildAll_cons_eq_ok.1 built
    obtain ⟨_, h, same, first⟩ := ih (Phrase.buildAll_singleton_eq_ok.2 run)
    cases same
    obtain ⟨h', rest⟩ := ih' more
    refine ⟨h'.trans h.le, (pieces_eq_ok_iff going).2 ⟨id, _, h, h', others, d₁, first, rest, rfl⟩⟩
  | last _ bar ih =>
    obtain ⟨id, rfl, run⟩ := Phrase.exists_build_of_buildAll built
    obtain ⟨nodes, d₂, inner, planted⟩ := Phrase.build_branch_eq_ok.1 run
    obtain ⟨h, pieces⟩ := ih inner
    refine ⟨id, [], _, h, le_rfl, _, rfl, branch_eq_ok_iff.2 ⟨nodes, d₂, pieces, planted⟩, ?_⟩
    exact (furtherBranches_of_ne bar).2 ⟨rfl, rfl, rfl⟩
  | more _ _ ih ih' =>
    obtain ⟨id, d₁, others, run, more, rfl⟩ := Phrase.buildAll_cons_eq_ok.1 built
    obtain ⟨nodes, d₂, inner, planted⟩ := Phrase.build_branch_eq_ok.1 run
    obtain ⟨h, pieces⟩ := ih inner
    obtain ⟨first, others, rest₁, h₁, h₂, d₃, rfl, branch, further⟩ := ih' more
    have le : _ ≤ _ := (h₂.trans h₁).trans (Nat.le_succ _)
    refine ⟨id, _, _, h, le, d₁, rfl, branch_eq_ok_iff.2 ⟨nodes, d₂, pieces, planted⟩, ?_⟩
    exact furtherBranches_eq_ok_iff.2 ⟨first, rest₁, h₁, h₂, others, d₃, branch, further, rfl⟩

/-! ### Whole patterns -/

end Reading

/-- A text as a whole is a phrase. -/
def Phrase.Spells (M : Expansions) (cs : List Char) (φ : Phrase) : Prop :=
  ∃ first more, φ = .choice first more ∧ Parses M .branches cs (first :: more) []

/-- What macros stand for.  There are no macros in it. -/
def expansions : Expansions := fun name φ =>
  ∃ text, expansion? name = some text ∧ φ.Spells (fun _ _ => False) text.toList

/-- A macro is one of those that are listed. -/
theorem Reading.mem_macros_of_expansion? {name text : String}
    (found : expansion? name = some text) : (name, text) ∈ macros := by
  obtain ⟨before, after, eq, -⟩ := List.lookup_eq_some_iff.1 found
  rw [eq]
  exact List.mem_append_right _ List.mem_cons_self

namespace Reading

variable {macros : Macros} {M : Expansions} {d d' : Draft}

/-- A whole text is read if it is a phrase of which nodes can be made. -/
theorem wholePattern_eq_ok_iff (stands : Stands macros M) {cs : List Char} {id : ℕ} :
    wholePattern macros cs d = .ok id d' ↔
      ∃ φ : Phrase, φ.Spells M cs ∧ φ.build d = .ok id d' := by
  rw [wholePattern]
  constructor
  · intro run
    obtain ⟨⟨root, rest, h⟩, d₁, inner, run⟩ := bind_eq_ok_iff.1 run
    cases rest with
    | cons c others => cases run
    | nil =>
      cases run
      obtain ⟨first, rest₁, h₁, h₂, others, d₃, d₄, run₁, run₂, planted⟩ :=
        alternatives_eq_ok_iff.1 inner
      obtain ⟨φs, parses, built⟩ := splits stands .branches cs _ _ _ _
        ⟨first, others, rest₁, h₁, h₂, d₃, rfl, run₁, run₂⟩
      obtain - | ⟨φ, φs⟩ := φs
      · cases (Phrase.buildAll_nil_eq_ok.1 built).1
      obtain ⟨_, _, _, here, there, same⟩ := Phrase.buildAll_cons_eq_ok.1 built
      cases same
      exact ⟨.choice φ φs, ⟨φ, φs, rfl, parses⟩,
        Phrase.build_choice_eq_ok.2 ⟨_, _, _, _, here, there, planted⟩⟩
  · rintro ⟨_, ⟨first, more, rfl, parses⟩, built⟩
    obtain ⟨node, others, d₁, d₂, here, there, planted⟩ := Phrase.build_choice_eq_ok.1 built
    obtain ⟨_, _, rest₁, h₁, h₂, d₃, same, branch, further⟩ :=
      runs_of_parses stands parses (Phrase.buildAll_cons_eq_ok.2 ⟨_, _, _, here, there, rfl⟩)
    cases same
    refine bind_eq_ok_iff.2 ⟨(id, ⟨[], h₂.trans h₁⟩), d', ?_, rfl⟩
    exact alternatives_eq_ok_iff.2 ⟨_, _, h₁, h₂, _, _, _, branch, further, planted⟩

/-- Where no macro is known none stands for anything. -/
theorem stands_none : Stands (fun _ => none) fun _ _ => False := by
  intro name d d' id
  simp

/-- **A macro stands for the phrases that its text can be read as.** -/
theorem stands_expandMacro : Stands expandMacro expansions := by
  intro name d d' id
  unfold expandMacro expansions
  constructor
  · rintro ⟨reader, found, run⟩
    obtain ⟨text, expands, rfl⟩ := Option.map_eq_some_iff.1 found
    obtain ⟨φ, spells, built⟩ := (wholePattern_eq_ok_iff stands_none).1 run
    exact ⟨φ, ⟨text, expands, spells⟩, built⟩
  · rintro ⟨φ, ⟨text, expands, spells⟩, built⟩
    refine ⟨_, Option.map_eq_some_iff.2 ⟨text, expands, rfl⟩, ?_⟩
    exact (wholePattern_eq_ok_iff stands_none).2 ⟨φ, spells, built⟩

end Reading

/-- **A pattern can be read exactly if it is a phrase of which nodes can be made**, and what is read
is what is made of the phrase. -/
theorem Compiled.ofPattern?_eq_ok_iff {pattern : String} {c : Compiled} :
    ofPattern? pattern = .ok c ↔ ∃ (φ : Phrase) (d : Draft), φ.Spells expansions pattern.toList ∧
      φ.build {} = .ok c.root d ∧ d.finish c.root = c := by
  constructor
  · intro h
    unfold ofPattern? Draft.read at h
    dsimp only at h
    rcases run : wholePattern expandMacro pattern.toList {} with ⟨root, d⟩ | ⟨e, d⟩
    · rw [run] at h
      cases h
      obtain ⟨φ, spells, built⟩ := (wholePattern_eq_ok_iff stands_expandMacro).1 run
      exact ⟨φ, d, spells, built, rfl⟩
    · rw [run] at h
      cases h
  · rintro ⟨φ, d, spells, built, finished⟩
    have run := (wholePattern_eq_ok_iff stands_expandMacro).2 ⟨φ, spells, built⟩
    unfold ofPattern? Draft.read
    dsimp only
    rw [run]
    exact congrArg Except.ok finished

end PatternSampler
