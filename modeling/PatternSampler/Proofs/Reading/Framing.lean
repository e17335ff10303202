/-
# Patterns inside of patterns

A text that is taken apart in some way is taken apart in the same way if something follows that ends
a branch, a closing parenthesis or a bar.  So a pattern keeps its meaning as a branch or as the
inside of a group of a larger one.

* `Parses.append` : what follows does not change how a text is taken apart.
* `Parses.branches_append` : two patterns with a bar between them.
* `Parses.group_piece` : a pattern in parentheses, with a quantifier behind them.
-/
import PatternSampler.Proofs.Reading.Phrase

namespace PatternSampler

open Reading

/-- A text begins with a closing parenthesis or a bar, unless it is empty. -/
def EndsBranch (tail : List Char) : Prop :=
  ∀ c, tail.head? = some c → c = ')' ∨ c = '|'

/-- A branch ends at the end of the text, at a bar or at a closing parenthesis. -/
theorem Reading.atBranchEnd_iff {cs : List Char} : atBranchEnd cs = true ↔ EndsBranch cs := by
  cases cs <;> simp [atBranchEnd, EndsBranch]

namespace EndsBranch

variable {cs rest tail used : List Char} {a : Atom}

/-- If a character is the first one of two texts in a row, it is the first of one of them. -/
theorem head?_append {c : Char} (h : (cs ++ tail).head? = some c) :
    cs.head? = some c ∨ cs = [] ∧ tail.head? = some c := by
  cases cs with
  | nil => exact .inr ⟨rfl, h⟩
  | cons d cs => exact .inl h

/-- Only a bar or a parenthesis can come to stand in front. -/
theorem head?_ne (ends : EndsBranch tail) {c : Char} (other : cs.head? ≠ some c)
    (paren : c ≠ ')') (bar : c ≠ '|') : (cs ++ tail).head? ≠ some c := by
  intro head
  rcases head?_append head with here | ⟨-, here⟩
  · exact other here
  · rcases ends c here with rfl | rfl
    · exact paren rfl
    · exact bar rfl

/-- A character that neither ends a branch nor begins the text does not begin the text with the
tail. -/
theorem forall_head? (ends : EndsBranch tail) {motive : Char → Prop} (paren : motive ')')
    (bar : motive '|') (here : ∀ c, cs.head? = some c → motive c) (c : Char)
    (head : (cs ++ tail).head? = some c) : motive c := by
  rcases head?_append head with head | ⟨-, head⟩
  · exact here c head
  · rcases ends c head with rfl | rfl
    · exact paren
    · exact bar

/-- What ends a branch may follow any lexeme. -/
theorem follows (ends : EndsBranch tail) (rest : List Char) : Follows rest (rest ++ tail) := by
  cases rest with
  | nil =>
    right
    intro c head
    rcases ends c head with rfl | rfl <;> decide
  | cons c rest => exact .inl rfl

/-- An atom is read as it is without the tail. -/
theorem readAtom (ends : EndsBranch tail) (group : cs.head? ≠ some '(')
    (h : Reading.readAtom cs = .ok (a, rest)) :
    Reading.readAtom (cs ++ tail) = .ok (a, rest ++ tail) := by
  rcases readAtom_cases group h with ⟨used, run, rfl, rfl, stops⟩ | ⟨used, reads⟩
  · rw [List.append_assoc]
    exact readAtom_run run (ends.forall_head? (by decide) (by decide) stops)
  · rw [reads.split, List.append_assoc]
    exact reads.reads _ fun _ => ends.follows rest

/-- What ends a branch does not count for a group that begins in front of it. -/
theorem readGroupHead (ends : EndsBranch tail) {kind : GroupKind}
    (h : Reading.readGroupHead cs = .ok (kind, rest)) :
    Reading.readGroupHead (cs ++ tail) = .ok (kind, rest ++ tail) := by
  rcases readGroupHead_cases h with ⟨rfl, rfl, plain⟩ | ⟨used, -, rfl, reads⟩
  · exact readGroupHead_of_ne (ends.head?_ne plain (by decide) (by decide))
  · rw [List.append_assoc]
    exact reads (rest ++ tail)

/-- What ends a branch does not count for a quantifier in front of it. -/
theorem readQuantifier (ends : EndsBranch tail) {quantifier : Option Quantifier}
    (h : Reading.readQuantifier cs = .ok (quantifier, rest)) :
    Reading.readQuantifier (cs ++ tail) = .ok (quantifier, rest ++ tail) := by
  rcases readQuantifier_cases h with ⟨rfl, rfl, none⟩ | ⟨c, used, -, -, rfl, stops, reads⟩
  · exact readQuantifier_of_none (ends.forall_head? (by decide) (by decide) none)
  · rw [List.append_assoc]
    exact reads _ (ends.head?_ne stops (by decide) (by decide))

/-- A marker in front of the tail or across its beginning is one without the tail. -/
theorem exists_marker (ends : EndsBranch tail) (h : cs ++ tail = '\\' :: 'i' :: rest) :
    ∃ rest', cs = '\\' :: 'i' :: rest' ∧ rest = rest' ++ tail := by
  match cs with
  | [] =>
    obtain rfl : tail = '\\' :: 'i' :: rest := h
    exact absurd (ends '\\' rfl) (by decide)
  | [c] =>
    obtain ⟨rfl, rfl⟩ := List.cons.inj h
    exact absurd (ends 'i' rfl) (by decide)
  | c :: d :: cs =>
    obtain ⟨rfl, rfl, rfl⟩ : c = '\\' ∧ d = 'i' ∧ cs ++ tail = rest := by simpa using h
    exact ⟨cs, rfl, rfl⟩

/-- What ends a branch is no marker and completes none. -/
theorem atMarker (ends : EndsBranch tail) (cs : List Char) :
    Reading.atMarker (cs ++ tail) = Reading.atMarker cs := by
  rw [Bool.eq_iff_iff, atMarker_iff, atMarker_iff]
  constructor
  · rintro ⟨rest, eq⟩
    obtain ⟨rest', rfl, -⟩ := ends.exists_marker eq
    exact ⟨rest', rfl⟩
  · rintro ⟨rest, rfl⟩
    exact ⟨rest ++ tail, rfl⟩

/-- What ends a branch is no quantifier with a marker in front of it, and completes none. -/
theorem atQuantifierMarker (ends : EndsBranch tail) (cs : List Char) :
    Reading.atQuantifierMarker (cs ++ tail) = Reading.atQuantifierMarker cs := by
  rw [Bool.eq_iff_iff, atQuantifierMarker_iff, atQuantifierMarker_iff]
  constructor
  · rintro ⟨c, rest, eq, mem⟩
    obtain ⟨rest', rfl, eq'⟩ := ends.exists_marker eq
    rcases head?_append (eq' ▸ rfl : (rest' ++ tail).head? = some c) with head | ⟨-, head⟩
    · exact ⟨c, rest'.tail, by rw [List.cons_head?_tail head], mem⟩
    · rcases ends c head with rfl | rfl <;> exact absurd mem (by decide)
  · rintro ⟨c, rest, rfl, mem⟩
    exact ⟨c, rest ++ tail, rfl, mem⟩

/-- A marker at the end stays at the end. -/
theorem atClosingMarker (ends : EndsBranch tail) (cs : List Char) :
    Reading.atClosingMarker (cs ++ tail) = Reading.atClosingMarker cs := by
  rw [Bool.eq_iff_iff, atClosingMarker_iff, atClosingMarker_iff]
  constructor
  · rintro ⟨rest, eq, close⟩
    obtain ⟨rest', rfl, rfl⟩ := ends.exists_marker eq
    refine ⟨rest', rfl, fun c head => close c ?_⟩
    rw [List.head?_append, head]
    rfl
  · rintro ⟨rest, rfl, close⟩
    exact ⟨rest ++ tail, rfl, ends.forall_head? (by decide) (by decide) close⟩

/-- A marker is skipped in front of what ends the branch. -/
theorem skipMarker (present : Bool) (here : present = true → Reading.atMarker cs = true) :
    PatternSampler.skipMarker present (cs ++ tail) =
      PatternSampler.skipMarker present cs ++ tail := by
  cases present with
  | false => rfl
  | true =>
    obtain ⟨rest, rfl⟩ := atMarker_iff.1 (here rfl)
    rfl

end EndsBranch

/-- A phrase in parentheses with a quantifier behind them, and without markers. -/
def Phrase.parenthesized (kind : GroupKind) (body : Phrase) (quantifier : Option Quantifier) :
    Phrase :=
  piece ⟨false, false, false⟩ (group kind body) quantifier

namespace Parses

variable {M : Expansions} {level : Level} {cs rest tail : List Char} {φs ψs : List Phrase}

theorem atMarker_of_atQuantifierMarker (h : atQuantifierMarker cs = true) :
    atMarker cs = true := by
  obtain ⟨c, rest, rfl, -⟩ := atQuantifierMarker_iff.1 h
  rfl

theorem atMarker_of_atClosingMarker (h : atClosingMarker cs = true) : atMarker cs = true := by
  obtain ⟨rest, rfl, -⟩ := atClosingMarker_iff.1 h
  rfl

/-- A branch goes on in front of what ends it. -/
theorem atBranchEnd_append (ends : EndsBranch tail) (cs : List Char) :
    atBranchEnd (cs ++ tail) = atBranchEnd cs := by
  cases cs with
  | nil =>
    cases tail with
    | nil => rfl
    | cons c tail => rcases ends c rfl with rfl | rfl <;> rfl
  | cons c cs => rfl

/-- **A text is taken apart in the same way if a branch ends behind it.**  Branches may go on only
where something else stands in between. -/
theorem append (h : Parses M level cs φs rest) (ends : EndsBranch tail)
    (last : level = .branches → rest = [] → tail.head? ≠ some '|') :
    Parses M level (cs ++ tail) φs (rest ++ tail) := by
  induction h with
  | atom group read plain =>
    exact .atom (ends.head?_ne group (by decide) (by decide)) (ends.readAtom group read) plain
  | expansion group read means =>
    exact .expansion (ends.head?_ne group (by decide) (by decide)) (ends.readAtom group read) means
  | group head _ ih => exact .group (ends.readGroupHead head) (ih nofun)
  | @piece cs rest₁ rest₂ rest φ quantifier _ read eq ih =>
    have inner := ih nofun
    have read' := ends.readQuantifier read
    rw [← ends.atMarker cs, ← ends.atQuantifierMarker rest₁, ← ends.atClosingMarker rest₂]
    refine .piece ?_ ?_ ?_
    · rwa [ends.atMarker, EndsBranch.skipMarker _ fun h => h]
    · rwa [ends.atQuantifierMarker,
        EndsBranch.skipMarker _ atMarker_of_atQuantifierMarker]
    · rw [eq, ends.atClosingMarker, EndsBranch.skipMarker _ atMarker_of_atClosingMarker]
  | nil stop => exact .nil ((atBranchEnd_append ends _).trans stop)
  | cons going _ _ ih ih' =>
    exact .cons ((atBranchEnd_append ends _).trans going) (ih nofun) (ih' nofun)
  | last _ bar ih =>
    refine .last (ih nofun) fun head => ?_
    rcases EndsBranch.head?_append head with here | ⟨nothing, here⟩
    · exact bar here
    · exact last rfl nothing here
  | more _ _ ih ih' => exact .more (ih nofun) (ih' fun _ => last rfl)

/-- Two patterns with a bar between them are taken apart one after the other. -/
theorem branches_append {qs : List Char} (h : Parses M .branches cs φs [])
    (h' : Parses M .branches qs ψs rest) :
    Parses M .branches (cs ++ '|' :: qs) (φs ++ ψs) rest := by
  have ends : EndsBranch ('|' :: qs) := by
    rintro _ ⟨⟩
    exact .inr rfl
  generalize level : Level.branches = l at h
  generalize nothing : ([] : List Char) = left at h
  induction h with
  | atom | expansion | group | piece | nil | cons => cases level
  | last pieces bar =>
    -- the last branch of the first pattern is followed by the bar now
    subst nothing
    exact .more (pieces.append ends nofun) h'
  | more pieces _ _ ih => exact .more (pieces.append ends nofun) (ih level nothing)

/-- What can be taken apart does not begin with a quantifier. -/
theorem head?_notMem (h : Parses M level cs φs rest) :
    ∀ c, cs.head? = some c → c ∉ quantifierChars := by
  have atom {cs rest : List Char} {a : Atom} (read : readAtom cs = .ok (a, rest)) :
      ∀ c, cs.head? = some c → c ∉ quantifierChars := by
    intro c head mem
    rw [← List.cons_head?_tail head] at read
    fin_cases mem <;> simp [readAtom, misplacedChars] at read
  induction h with
  | atom _ read => exact atom read
  | expansion _ read => exact atom read
  | group =>
    rintro _ ⟨⟩
    decide
  | @piece cs _ _ _ _ _ _ _ _ ih =>
    intro c head mem
    obtain ⟨tail, rfl⟩ : ∃ tail, cs = c :: tail := ⟨_, (List.cons_head?_tail head).symm⟩
    refine ih c ?_ mem
    fin_cases mem <;> rfl
  | nil stop =>
    intro c head mem
    rw [← List.cons_head?_tail head] at stop
    fin_cases mem <;> simp [atBranchEnd] at stop
  | cons _ _ _ ih => exact ih
  | last _ _ ih => exact ih
  | more _ _ ih => exact ih

/-- No piece begins with a question mark. -/
theorem head?_ne_question (h : Parses M level cs φs rest) : cs.head? ≠ some '?' :=
  fun head => h.head?_notMem '?' head (by decide)

/-- A piece without markers. -/
theorem piece_of_atMarker {rest₁ : List Char} {φ : Phrase} {quantifier : Option Quantifier}
    (h : Parses M .atom cs [φ] rest₁) (read : readQuantifier rest₁ = .ok (quantifier, rest))
    (first : atMarker cs = false) (second : atMarker rest₁ = false)
    (third : atMarker rest = false) :
    Parses M .piece cs [.piece ⟨false, false, false⟩ φ quantifier] rest := by
  have second : atQuantifierMarker rest₁ = false :=
    Bool.eq_false_iff.2 fun here =>
      Bool.eq_false_iff.1 second (atMarker_of_atQuantifierMarker here)
  have third : atClosingMarker rest = false :=
    Bool.eq_false_iff.2 fun here => Bool.eq_false_iff.1 third (atMarker_of_atClosingMarker here)
  have piece : Parses M .piece cs
      [.piece ⟨atMarker cs, atQuantifierMarker rest₁, atClosingMarker rest⟩ φ quantifier] rest := by
    refine .piece ?_ ?_ ?_
    · rwa [first]
    · rwa [second]
    · rw [third]
      rfl
  rwa [first, second, third] at piece

/-- A pattern in parentheses, with a quantifier behind them. -/
theorem group_piece {cs after : List Char} {kind : GroupKind} {first : Phrase}
    {more : List Phrase} {quantifier : Option Quantifier}
    (h : Parses M .branches cs (first :: more) []) (head : List Char)
    (opens : readGroupHead (head ++ (cs ++ ')' :: after)) = .ok (kind, cs ++ ')' :: after))
    (read : readQuantifier after = .ok (quantifier, rest)) (noMarker : atMarker after = false)
    (noMarker' : atMarker rest = false) :
    Parses M .piece ('(' :: (head ++ (cs ++ ')' :: after)))
      [.parenthesized kind (.choice first more) quantifier] rest := by
  have ends : EndsBranch (')' :: after) := by
    rintro _ ⟨⟩
    exact .inl rfl
  have inside := h.append ends (fun _ _ => by simp)
  exact piece_of_atMarker (.group opens inside) read rfl noMarker noMarker'

end Parses

end PatternSampler
