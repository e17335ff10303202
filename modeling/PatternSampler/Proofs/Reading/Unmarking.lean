/-
# Deleting markers

Without its markers a text is taken apart into phrases that replace those with the markers.  Only
where a marker stood between two runs of plain characters, the second run is put together with the
first one.

* `UnmarksAtom`, `UnmarksPiece`, `UnmarksPieces` : what becomes of a part of a text.
* `Parses.unmarks` : what becomes of phrases of any kind.
* `Phrase.Spells.unmarked` : what becomes of a whole text.
-/
import PatternSampler.Proofs.Reading.Markers
import PatternSampler.Proofs.Reading.Replacement

namespace PatternSampler

open Reading

variable {M : Expansions} {cs rest : List Char} {φ : Phrase} {φs : List Phrase}

/-! ## Readers without markers -/

/-- A marker that is skipped is not there without markers. -/
theorem unmarked_skipMarker {present : Bool} (here : present = true → atMarker cs = true) :
    unmarked (skipMarker present cs) = unmarked cs := by
  cases present with
  | false => rfl
  | true =>
    obtain ⟨rest, rfl⟩ := atMarker_iff.1 (here rfl)
    exact (unmarked_marker rest).symm

namespace Reading

/-- A token begins with one of five characters. -/
theorem IsToken.exists_head {used : List Char} (token : IsToken rest used) :
    ∃ c ∈ ['.', '^', '$', '\\', '['], ∃ tail, used = c :: tail := by
  cases token with
  | @single c mem =>
    refine ⟨c, ?_, [], rfl⟩
    fin_cases mem <;> decide
  | escape => exact ⟨'\\', by decide, _, rfl⟩
  | number => exact ⟨'\\', by decide, _, rfl⟩
  | set => exact ⟨'[', by decide, _, rfl⟩

/-- An atom that is no group stays what it is; a run may be one that would go on. -/
theorem readAtom_unmarked {a : Atom} (group : cs.head? ≠ some '(')
    (read : readAtom cs = .ok (a, rest)) (separated : Separated cs) (single : Single rest) :
    (∃ used, IsRun used ∧ a = .text used ∧ unmarked cs = used ++ unmarked rest) ∨
      readAtom (unmarked cs) = .ok (a, unmarked rest) ∧ (unmarked cs).head? ≠ some '(' ∧
        Stops isPlainChar (unmarked cs) := by
  rcases readAtom_cases group read with ⟨used, run, rfl, rfl, stops⟩ | ⟨used, reads⟩
  · exact .inl ⟨used, run, rfl, run.skips.unmarked⟩
  · obtain ⟨⟨rfl, reads⟩, token⟩ := reads
    right
    rw [token.skips.unmarked]
    obtain ⟨c, mem, tail, eq⟩ := token.exists_head
    refine ⟨reads _ (follows_unmarked token separated single), ?_, ?_⟩
    · rw [eq]
      fin_cases mem <;> simp
    · rw [eq]
      rintro _ ⟨⟩
      fin_cases mem <;> decide

/-- Without markers a group begins as before, if no question mark comes to stand behind its
parenthesis. -/
theorem readGroupHead_unmarked {kind : GroupKind} (read : readGroupHead cs = .ok (kind, rest))
    (question : (unmarked rest).head? ≠ some '?') :
    readGroupHead (unmarked cs) = .ok (kind, unmarked rest) := by
  rcases readGroupHead_cases read with ⟨rfl, rfl, -⟩ | ⟨used, plain, rfl, reads⟩
  · exact readGroupHead_of_ne question
  · have plain : Plain ('?' :: used) := plain.cons (by decide)
    rw [plain.skips.unmarked]
    exact reads (unmarked rest)

theorem ne_of_mem_quantifierChars {c : Char} (mem : c ∈ quantifierChars) :
    c ≠ '\\' ∧ c ≠ '[' ∧ c ≠ ']' := by
  fin_cases mem <;> decide

/-- Without markers a quantifier is read as before, if none comes to stand behind it. -/
theorem readQuantifier_unmarked {quantifier : Option Quantifier}
    (read : readQuantifier cs = .ok (quantifier, rest))
    (next : ∀ c, (unmarked rest).head? = some c → c ∉ quantifierChars) :
    readQuantifier (unmarked cs) = .ok (quantifier, unmarked rest) := by
  rcases readQuantifier_cases read with ⟨rfl, rfl, -⟩ | ⟨c, used, mem, plain, rfl, -, reads⟩
  · exact readQuantifier_of_none next
  · have plain : Plain (c :: used) := plain.cons (ne_of_mem_quantifierChars mem)
    rw [plain.skips.unmarked]
    exact reads (unmarked rest) fun head => next '?' head (by decide)

/-- What follows a run and its quantifier ends the run. -/
theorem stops_of_readQuantifier {q : Quantifier} (read : readQuantifier cs = .ok (some q, rest)) :
    Stops isPlainChar cs ∧ atMarker cs = false := by
  rcases readQuantifier_cases read with ⟨⟨⟩, -⟩ | ⟨c, used, mem, -, rfl, -⟩
  constructor
  · rintro _ ⟨⟩
    fin_cases mem <;> decide
  · fin_cases mem <;> rfl

/-! ## Ends of branches -/

/-- What ends a branch is no marker. -/
theorem atMarker_of_atBranchEnd (stop : atBranchEnd cs = true) : atMarker cs = false := by
  rw [atMarker_eq_false_iff]
  rintro rest rfl
  cases stop

/-- Without markers a branch ends where it did. -/
theorem atBranchEnd_unmarked (stop : atBranchEnd cs = true) : atBranchEnd (unmarked cs) = true := by
  rw [atBranchEnd_iff]
  intro c head
  rw [head?_unmarked (atMarker_of_atBranchEnd stop)] at head
  exact atBranchEnd_iff.1 stop c head

/-- What ends a branch ends a run of plain characters. -/
theorem stops_of_atBranchEnd (stop : atBranchEnd cs = true) : Stops isPlainChar cs := by
  intro c head
  rcases atBranchEnd_iff.1 stop c head with rfl | rfl <;> decide

end Reading

namespace Parses

/-- Behind its pieces a branch ends. -/
theorem atBranchEnd_rest (h : Parses M .pieces cs φs rest) : atBranchEnd rest = true := by
  generalize level : Level.pieces = l at h
  induction h with
  | atom | expansion | group | piece | last | more => cases level
  | nil stop => exact stop
  | cons _ _ _ _ ih => exact ih level

/-- An atom begins with no marker and ends no branch. -/
theorem atom_start (h : Parses M .atom cs φs rest) :
    atMarker cs = false ∧ atBranchEnd cs = false := by
  have atom {cs rest : List Char} {a : Atom} (read : readAtom cs = .ok (a, rest)) :
      atMarker cs = false ∧ atBranchEnd cs = false := by
    constructor
    · rw [atMarker_eq_false_iff]
      rintro rest rfl
      simp [readAtom, readEscape, Shorthand.ofLetter?, bind, Except.bind] at read
    · rw [Bool.eq_false_iff]
      intro stop
      cases cs with
      | nil => cases read
      | cons c cs =>
        rcases atBranchEnd_iff.1 stop c rfl with rfl | rfl <;>
          simp [readAtom, misplacedChars] at read
  cases h with
  | atom _ read => exact atom read
  | expansion _ read => exact atom read
  | group => exact ⟨rfl, rfl⟩

/-- Where a piece begins no branch ends. -/
theorem atBranchEnd_piece (h : Parses M .piece cs φs rest) : atBranchEnd cs = false := by
  cases h with
  | piece inner =>
    rw [Bool.eq_false_iff]
    intro stop
    rw [atMarker_of_atBranchEnd stop] at inner
    exact Bool.false_ne_true (inner.atom_start.2.symm.trans stop)

end Parses

/-- What follows a piece: no two markers, and no quantifier once the marker is gone. -/
structure Tidy (cs : List Char) : Prop where
  single : Single cs
  next : ∀ c, (unmarked cs).head? = some c → c ∉ quantifierChars

theorem Parses.tidy (h : Parses M .pieces cs φs rest) : Tidy cs := by
  cases h with
  | nil stop =>
    have first := atMarker_of_atBranchEnd stop
    constructor
    · rintro rest rfl
      cases first
    · rw [head?_unmarked first]
      intro c head
      rcases atBranchEnd_iff.1 stop c head with rfl | rfl <;> decide
  | cons _ piece _ =>
    cases piece with
    | piece inner =>
      have start := inner.atom_start.1
      have head := inner.head?_notMem
      rw [← head?_unmarked start, unmarked_skipMarker fun h => h] at head
      refine ⟨?_, head⟩
      rintro rest rfl
      exact start

/-! ## Atoms and pieces -/

/-- What becomes of an atom: it stays a run, which may go on, or it is replaced by another atom, at
which a run before it ends. -/
inductive UnmarksAtom (M : Expansions) (cs : List Char) (φ : Phrase) (rest : List Char) : Prop
  | run {used : List Char} : IsRun used → φ = .atom (.text used) →
      unmarked cs = used ++ unmarked rest → UnmarksAtom M cs φ rest
  | other {φ' : Phrase} : Parses M .atom (unmarked cs) [φ'] (unmarked rest) → φ'.Unmarked →
      (∀ marks quantifier, (Phrase.piece ⟨false, false, false⟩ φ' quantifier).Replaces
        (.piece marks φ quantifier)) →
      Stops isPlainChar (unmarked cs) → UnmarksAtom M cs φ rest

/-- What becomes of a piece: it stays a run with a quantifier or none, or it is replaced by another
piece. -/
inductive UnmarksPiece (M : Expansions) (cs : List Char) (φ : Phrase) (rest : List Char) : Prop
  | run {used tail : List Char} {marks : Marks} {quantifier : Option Quantifier} : IsRun used →
      φ = .piece marks (.atom (.text used)) quantifier → unmarked cs = used ++ tail →
      readQuantifier tail = .ok (quantifier, unmarked rest) → UnmarksPiece M cs φ rest
  | other {φ' : Phrase} : Parses M .piece (unmarked cs) [φ'] (unmarked rest) → φ'.Unmarked →
      φ'.Replaces φ → Stops isPlainChar (unmarked cs) → UnmarksPiece M cs φ rest

/-- An atom that is no group and no macro is read without markers. -/
theorem unmarksAtom_atom {a : Atom} (group : cs.head? ≠ some '(')
    (read : readAtom cs = .ok (a, rest)) (plain : ∀ name, a ≠ .macroName name)
    (separated : Separated cs) (single : Single rest) : UnmarksAtom M cs (.atom a) rest := by
  rcases readAtom_unmarked group read separated single with
    ⟨used, run, rfl, eq⟩ | ⟨read', group', stops⟩
  · exact .run run rfl eq
  · exact .other (.atom group' read' plain) .atom
      (fun marks quantifier => Phrase.replaces_piece marks _ _ quantifier) stops

/-- A macro is read without markers; it stands for a phrase that has none. -/
theorem unmarksAtom_expansion {name : String} (group : cs.head? ≠ some '(')
    (read : readAtom cs = .ok (.macroName name, rest)) (means : M name φ) (clean : φ.Unmarked)
    (separated : Separated cs) (single : Single rest) : UnmarksAtom M cs φ rest := by
  rcases readAtom_unmarked group read separated single with
    ⟨used, run, ⟨⟩, eq⟩ | ⟨read', group', stops⟩
  exact .other (.expansion group' read' means) clean
    (fun marks quantifier => Phrase.replaces_piece marks _ _ quantifier) stops

/-- No two markers stand behind an atom if none stand behind the piece. -/
theorem single_of_readQuantifier {quantifier : Option Quantifier}
    (read : readQuantifier (skipMarker (atQuantifierMarker cs) cs) = .ok (quantifier, rest))
    (next : Single (skipMarker (atClosingMarker rest) rest)) : Single cs := by
  rintro tail rfl
  -- the first marker belongs to the piece, so what is behind it is known
  by_cases marker : atQuantifierMarker ('\\' :: 'i' :: tail) = true
  · obtain ⟨c, tail, ⟨⟩, mem⟩ := atQuantifierMarker_iff.1 marker
    fin_cases mem <;> rfl
  have marker : atQuantifierMarker ('\\' :: 'i' :: tail) = false := by simpa using marker
  rw [marker] at read
  rcases readQuantifier_cases read with ⟨-, eq, -⟩ | ⟨c, used, mem, -, eq, -⟩
  · have eq : '\\' :: 'i' :: tail = rest := eq
    subst eq
    by_cases closing : atClosingMarker ('\\' :: 'i' :: tail) = true
    · obtain ⟨tail, ⟨⟩, ends⟩ := atClosingMarker_iff.1 closing
      refine atMarker_of_atBranchEnd (atBranchEnd_iff.2 fun c head => ?_)
      have stop := ends c head
      fin_cases stop <;> simp
    · have closing : atClosingMarker ('\\' :: 'i' :: tail) = false := by simpa using closing
      rw [closing] at next
      exact next tail rfl
  · obtain ⟨rfl, -⟩ := List.cons.inj eq
    exact absurd mem (by decide)

/-- **A piece is read without its markers**, if its atom is. -/
theorem unmarksPiece {rest₁ rest₂ : List Char} {quantifier : Option Quantifier}
    (atom : Separated (skipMarker (atMarker cs) cs) → Single rest₁ →
      UnmarksAtom M (skipMarker (atMarker cs) cs) φ rest₁)
    (read : readQuantifier (skipMarker (atQuantifierMarker rest₁) rest₁) = .ok (quantifier, rest₂))
    (eq : rest = skipMarker (atClosingMarker rest₂) rest₂) (separated : Separated cs)
    (tidy : Tidy rest) (marks : Marks) :
    UnmarksPiece M cs (.piece marks φ quantifier) rest := by
  have second : atQuantifierMarker rest₁ = true → atMarker rest₁ = true :=
    Parses.atMarker_of_atQuantifierMarker
  have third : atClosingMarker rest₂ = true → atMarker rest₂ = true :=
    Parses.atMarker_of_atClosingMarker
  have single : Single rest₁ := single_of_readQuantifier read (eq ▸ tidy.single)
  have inner := atom ((Takes.skipMarker fun h => h).separated separated) single
  have next : unmarked rest = unmarked rest₂ := eq ▸ unmarked_skipMarker third
  have read' := readQuantifier_unmarked read (next ▸ tidy.next)
  rw [unmarked_skipMarker second, ← next] at read'
  cases inner with
  | run run text same =>
    rw [unmarked_skipMarker fun h => h] at same
    subst text
    exact .run run rfl same read'
  | other parses clean replaces stops =>
    rw [unmarked_skipMarker fun h => h] at parses stops
    refine .other (parses.piece_of_atMarker read' ?_ ?_ ?_) (.piece clean)
      (replaces marks quantifier) stops <;> exact atMarker_unmarked _

/-! ## Pieces one after the other -/

/-- What may be waiting to be put together with a run: nothing, or a run. -/
def Pending (pending : List Char) : Prop :=
  pending = [] ∨ IsRun pending

/-- What becomes of pieces behind a run that is waiting, if `cs` is left of their text and `rest` of
the text behind them. -/
def UnmarksPieces (M : Expansions) (cs rest pending : List Char) (φs : List Phrase) : Prop :=
  ∃ φs', Parses M .pieces (pending ++ cs) φs' rest ∧ (∀ φ ∈ φs', φ.Unmarked) ∧
    Phrase.ReplacesRow pending φs' φs

/-- A run with a quantifier or none is a piece. -/
theorem Parses.run_piece {used tail : List Char} {quantifier : Option Quantifier} (run : IsRun used)
    (stops : Stops isPlainChar tail) (read : readQuantifier tail = .ok (quantifier, rest))
    (first : atMarker tail = false) (second : atMarker rest = false) :
    Parses M .piece (used ++ tail)
      [.piece ⟨false, false, false⟩ (.atom (.text used)) quantifier] rest := by
  have text := readAtom_run run stops
  obtain ⟨placed, special, plain⟩ := run
  rename_i c others
  refine piece_of_atMarker (.atom ?_ text (by simp)) read ?_ first second
  · rintro ⟨⟩
    exact special (by decide)
  · rw [atMarker_eq_false_iff]
    intro tail eq
    obtain rfl : c = '\\' := (List.cons.inj eq).1
    exact special (by decide)

/-- A run that is waiting becomes a piece of its own if it does not go on. -/
theorem UnmarksPieces.flush {pending : List Char} (h : UnmarksPieces M cs rest [] φs)
    (start : Pending pending) (stops : Stops isPlainChar cs) (noMarker : atMarker cs = false) :
    UnmarksPieces M cs rest pending φs := by
  rcases start with rfl | run
  · exact h
  obtain ⟨φs', parses, clean, replaces⟩ := h
  have parses : Parses M .pieces cs φs' rest := parses
  have none := readQuantifier_of_none parses.head?_notMem
  have piece := Parses.run_piece (M := M) run stops none noMarker noMarker
  exact ⟨_, .cons piece.atBranchEnd_piece piece parses,
    List.forall_mem_cons.2 ⟨.piece .atom, clean⟩, replaces.flush _ pending⟩

theorem Reading.IsRun.append {pending used : List Char} (run : IsRun pending)
    (plain : ∀ c ∈ used, isPlainChar c = true) : IsRun (pending ++ used) := by
  obtain ⟨placed, special, others⟩ := run
  exact .intro placed special (List.forall_mem_append.2 ⟨others, plain⟩)

/-- A run is put together with the one that is waiting, or it ends that one. -/
theorem Pending.append {pending used : List Char} (start : Pending pending) (run : IsRun used) :
    IsRun (pending ++ used) ∨ ∀ tail, Stops isPlainChar (used ++ tail) := by
  rcases start with rfl | run'
  · exact .inl run
  obtain ⟨placed, special, others⟩ := run
  rename_i c others
  -- what begins a run need not be a character that one goes on with
  by_cases plain : isPlainChar c = true
  · exact .inl (run'.append (List.forall_mem_cons.2 ⟨plain, others⟩))
  · right
    rintro tail _ ⟨⟩
    simpa using plain

/-- A run becomes the beginning of what follows, or it is repeated. -/
theorem UnmarksPieces.run {used tail pending next : List Char} {marks : Marks}
    {quantifier : Option Quantifier} (more : ∀ pending, Pending pending →
      UnmarksPieces M next rest pending φs) (run : IsRun used) (joined : IsRun (pending ++ used))
    (read : readQuantifier tail = .ok (quantifier, next)) (noMarker : atMarker next = false) :
    UnmarksPieces M (used ++ tail) rest pending
      (.piece marks (.atom (.text used)) quantifier :: φs) := by
  cases quantifier with
  | none =>
    -- the run waits together with the one before it
    obtain rfl := eq_of_readQuantifier_none read
    obtain ⟨φs', parses, clean, replaces⟩ := more _ (.inr joined)
    rw [List.append_assoc] at parses
    exact ⟨φs', parses, clean, replaces.text marks⟩
  | some q =>
    -- the quantifier ends the run and repeats the last character of both
    obtain ⟨φs', parses, clean, replaces⟩ := more [] (.inl rfl)
    obtain ⟨stops, noMarker'⟩ := stops_of_readQuantifier read
    have piece : Parses M .piece _ _ _ := .run_piece joined stops read noMarker' noMarker
    have parses' := Parses.cons piece.atBranchEnd_piece piece parses
    rw [List.append_assoc] at parses'
    have some : used ≠ [] := by
      obtain ⟨-, -, -⟩ := run
      exact List.cons_ne_nil _ _
    exact ⟨_, parses', List.forall_mem_cons.2 ⟨.piece .atom, clean⟩, replaces.repeated some _ _ q⟩

/-- One piece more. -/
theorem UnmarksPieces.cons {rest₁ pending : List Char} (piece : UnmarksPiece M cs φ rest₁)
    (more : ∀ pending, Pending pending → UnmarksPieces M (unmarked rest₁) rest pending φs)
    (start : Pending pending) : UnmarksPieces M (unmarked cs) rest pending (φ :: φs) := by
  have noMarker := atMarker_unmarked cs
  cases piece with
  | @run used tail marks quantifier run is eq read =>
    subst is
    have first := atMarker_unmarked rest₁
    rw [eq] at noMarker ⊢
    rcases start.append run with joined | stops
    · exact .run more run joined read first
    · have alone : UnmarksPieces M (used ++ tail) rest []
          (.piece marks (.atom (.text used)) quantifier :: φs) := .run more run run read first
      exact alone.flush start (stops tail) noMarker
  | other parses clean replaces stops =>
    obtain ⟨φs', parses', clean', replaces'⟩ := more [] (.inl rfl)
    have here : UnmarksPieces M (unmarked cs) rest [] (φ :: φs) :=
      ⟨_, .cons parses.atBranchEnd_piece parses parses', List.forall_mem_cons.2 ⟨clean, clean'⟩,
        replaces'.cons replaces⟩
    exact here.flush start stops noMarker

/-! ## All phrases -/

/-- What becomes of branches. -/
def UnmarksBranches (M : Expansions) (cs : List Char) (φs : List Phrase) (rest : List Char) :
    Prop :=
  ∃ φs', Parses M .branches (unmarked cs) φs' (unmarked rest) ∧ (∀ φ ∈ φs', φ.Unmarked) ∧
    List.Forall₂ Phrase.Replaces φs' φs

/-- What becomes of phrases of some kind. -/
def Unmarks (M : Expansions) : Level → List Char → List Phrase → List Char → Prop
  | .atom, cs, φs, rest => ∀ φ, φs = [φ] → Separated cs → Single rest → UnmarksAtom M cs φ rest
  | .piece, cs, φs, rest => ∀ φ, φs = [φ] → Separated cs → Tidy rest → UnmarksPiece M cs φ rest
  | .pieces, cs, φs, rest => Separated cs → ∀ pending, Pending pending →
    UnmarksPieces M (unmarked cs) (unmarked rest) pending φs
  | .branches, cs, φs, rest => Separated cs → UnmarksBranches M cs φs rest

/-- The inside of a group keeps its place. -/
theorem unmarksAtom_group {tail inside : List Char} {kind : GroupKind} {first : Phrase}
    {more : List Phrase} (read : readGroupHead tail = .ok (kind, inside))
    (inner : Separated inside → UnmarksBranches M inside (first :: more) (')' :: rest))
    (separated : Separated ('(' :: tail)) :
    UnmarksAtom M ('(' :: tail) (.group kind (.choice first more)) rest := by
  have opens := (Takes.char (c := '(') (by decide) (by decide) tail).trans (.readGroupHead read)
  obtain ⟨φs', parses, clean, replaces⟩ := inner (opens.separated separated)
  have text : unmarked ('(' :: tail) = '(' :: unmarked tail :=
    unmarked_of_ne (by decide) (by decide) tail
  cases replaces with
  | cons head others =>
    obtain ⟨clean, cleanOthers⟩ := List.forall_mem_cons.1 clean
    have read' := readGroupHead_unmarked read parses.head?_ne_question
    rw [unmarked_of_ne (by decide) (by decide) rest] at parses
    have parses' : Parses M .atom _ _ _ := .group read' parses
    rw [← text] at parses'
    refine .other parses' (.group (.choice clean cleanOthers)) (fun marks quantifier => ?_) ?_
    · exact Phrase.Replaces.group (head.choice others) kind marks _ quantifier
    · rw [text]
      rintro _ ⟨⟩
      decide

/-- The pieces of a branch are read without markers. -/
theorem UnmarksPieces.branch (h : UnmarksPieces M cs rest [] φs) :
    ∃ φs', Parses M .pieces cs φs' rest ∧ (Phrase.branch φs').Unmarked ∧
      (Phrase.branch φs').Replaces (.branch φs) := by
  obtain ⟨φs', parses, clean, replaces⟩ := h
  exact ⟨φs', parses, .branch clean, replaces.branch⟩

/-- **Without the markers a text is taken apart into phrases that replace those with them.** -/
theorem Parses.unmarks (clean : ∀ name φ, M name φ → φ.Unmarked) {level : Level}
    (h : Parses M level cs φs rest) : Unmarks M level cs φs rest := by
  -- pieces are taken apart behind whatever run is waiting, since a run may go on in the next piece
  induction h with
  | atom group read plain =>
    rintro φ ⟨⟩ separated single
    exact unmarksAtom_atom group read plain separated single
  | expansion group read means =>
    rintro φ ⟨⟩ separated single
    exact unmarksAtom_expansion group read means (clean _ _ means) separated single
  | group read _ ih =>
    rintro φ ⟨⟩ separated -
    exact unmarksAtom_group read ih separated
  | piece _ read eq ih =>
    rintro φ ⟨⟩ separated tidy
    exact unmarksPiece (ih _ rfl) read eq separated tidy _
  | nil stop =>
    intro separated pending start
    have stop := atBranchEnd_unmarked stop
    have nothing : UnmarksPieces M _ _ [] [] :=
      ⟨[], .nil stop, fun _ h => absurd h List.not_mem_nil, Phrase.replacesRow_nil⟩
    exact nothing.flush start (stops_of_atBranchEnd stop) (atMarker_unmarked _)
  | cons _ first others ih ih' =>
    intro separated pending start
    have left := (first.takes clean).separated separated
    exact .cons (ih _ rfl separated others.tidy) (ih' left) start
  | last pieces bar ih =>
    intro separated
    obtain ⟨φs', parses, clean, replaces⟩ := (ih separated [] (.inl rfl)).branch
    refine ⟨[.branch φs'], .last parses ?_, List.forall_mem_singleton.2 clean,
      .cons replaces .nil⟩
    rwa [head?_unmarked (atMarker_of_atBranchEnd pieces.atBranchEnd_rest)]
  | @more _ rest₁ _ _ _ pieces _ ih ih' =>
    intro separated
    have bar : Takes 0 ('|' :: rest₁) rest₁ := .char (by decide) (by decide) rest₁
    have left := ((pieces.takes clean).trans bar).separated separated
    obtain ⟨φs', parses, clean, replaces⟩ := (ih separated [] (.inl rfl)).branch
    obtain ⟨ψs', parses', clean', replaces'⟩ := ih' left
    rw [unmarked_of_ne (by decide) (by decide)] at parses
    exact ⟨.branch φs' :: ψs', .more parses parses',
      List.forall_mem_cons.2 ⟨clean, clean'⟩, .cons replaces replaces'⟩

/-- **A text without its markers** is a phrase without markers that replaces the one with them. -/
theorem Phrase.Spells.unmarked (spells : φ.Spells expansions cs) (separated : Separated cs) :
    ∃ φ' : Phrase, φ'.Spells expansions (unmarked cs) ∧ φ'.Unmarked ∧ φ'.Replaces φ := by
  obtain ⟨first, more, rfl, parses⟩ := spells
  obtain ⟨φs', parses', clean, replaces⟩ :=
    parses.unmarks (fun _ _ => expansions_unmarked) separated
  rw [unmarked_nil] at parses'
  cases replaces with
  | cons head tail =>
    obtain ⟨clean, cleanMore⟩ := List.forall_mem_cons.1 clean
    exact ⟨.choice _ _, ⟨_, _, rfl, parses'⟩, .choice clean cleanMore, head.choice tail⟩

end PatternSampler
