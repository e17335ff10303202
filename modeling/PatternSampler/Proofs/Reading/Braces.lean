/-
# Bounds in braces

What may stand between braces is an equals sign or none, a number, and behind it nothing, a comma,
or a comma and another number.  The readers of bounds share one cursor, and together they accept
exactly that, however many digits and zeros the numbers are written with.

* `SpellsBound`, `SpellsMost`, `SpellsBraces` : the grammar of bounds, with what the texts stand
  for.
* `Reading.readBound_iff_spells`, `Reading.readMost_iff_spells`, `Reading.readBraces_iff_spells` :
  each reader takes exactly the texts of the grammar.
* `Compiled.ofPattern?_braces_iff` : which patterns of a character and braces can be read.
-/
import PatternSampler.Proofs.Reading.Phrase

namespace PatternSampler

open Reading

/-! ## The grammar -/

/-- A number in decimal digits that may be a bound. -/
inductive SpellsBound : List Char → ℕ → Prop
  | intro {digits : List Char} : digits ≠ [] → (∀ c ∈ digits, c.isDigit = true) →
      Nat.ofDigitChars 10 digits 0 ≤ 100000 →
      SpellsBound digits (Nat.ofDigitChars 10 digits 0)

/-- What may stand behind the least number, and the greatest number that it stands for. -/
inductive SpellsMost (least : ℕ) : List Char → Option ℕ → Prop
  | same : SpellsMost least [] (some least)
  | unbounded : SpellsMost least [','] none
  | bounded {digits : List Char} {most : ℕ} : SpellsBound digits most → least ≤ most →
      SpellsMost least (',' :: digits) (some most)

/-- What may stand between braces, and the quantifier that it stands for. -/
inductive SpellsBraces : List Char → Quantifier → Prop
  | intro {digits tail : List Char} {least : ℕ} {most : Option ℕ} (sameText : Bool) :
      SpellsBound digits least → SpellsMost least tail most →
      SpellsBraces ((if sameText then ['='] else []) ++ digits ++ tail)
        { bounds := { least, most }, sameText }

theorem SpellsBound.head? {digits : List Char} {n : ℕ} (h : SpellsBound digits n)
    (rest : List Char) : ∃ c, (digits ++ rest).head? = some c ∧ c.isDigit = true := by
  obtain ⟨some, all, -⟩ := h
  obtain ⟨c, others, rfl⟩ := List.exists_cons_of_ne_nil some
  exact ⟨c, rfl, all c List.mem_cons_self⟩

/-- What stands behind the least number does not go on with digits. -/
theorem SpellsMost.stops {least : ℕ} {tail : List Char} {most : Option ℕ}
    (h : SpellsMost least tail most) (rest : List Char) :
    Stops Char.isDigit (tail ++ '}' :: rest) := by
  cases h with
  | same | unbounded | bounded =>
    rintro _ ⟨⟩
    rfl

namespace Reading

variable {cs rest : List Char}

/-! ## The readers -/

/-- A bound is a number at the front of the text that does not run on. -/
theorem readBound_iff_spells {n : ℕ} : readBound cs = .ok (n, rest) ↔
    ∃ digits, cs = digits ++ rest ∧ SpellsBound digits n ∧ Stops Char.isDigit rest := by
  constructor
  · intro h
    obtain ⟨some, small, rfl, rfl⟩ := readBound_eq_ok_iff.1 h
    have all : ∀ c ∈ cs.takeWhile Char.isDigit, c.isDigit = true :=
      fun _ mem => List.mem_takeWhile_imp mem
    rw [numberOf_eq_ofDigitChars all] at small ⊢
    exact ⟨_, List.takeWhile_append_dropWhile.symm, .intro some all small, stops_dropWhile _ _⟩
  · rintro ⟨digits, rfl, ⟨some, all, small⟩, stops⟩
    have value := numberOf_eq_ofDigitChars all
    have read := readBound_append all some (value.trans_le small) stops
    rwa [value] at read

/-- What stands between the least number and the closing brace, with the bounds in order. -/
theorem readMost_iff_spells {least : ℕ} {most : Option ℕ} :
    readMost least cs = .ok (most, '}' :: rest) ∧ ¬(most.any (· < least)) = true ↔
      ∃ tail, cs = tail ++ '}' :: rest ∧ SpellsMost least tail most := by
  constructor
  · rintro ⟨read, inOrder⟩
    unfold readMost at read
    split at read
    · cases read
      exact ⟨[','], rfl, .unbounded⟩
    · obtain ⟨⟨n, left⟩, second, read⟩ := bind_eq_ok.1 read
      cases read
      obtain ⟨digits, rfl, bound, -⟩ := readBound_iff_spells.1 second
      have le : least ≤ n := by simpa using inOrder
      exact ⟨',' :: digits, rfl, .bounded bound le⟩
    · cases read
      exact ⟨[], rfl, .same⟩
  · rintro ⟨tail, rfl, spells⟩
    cases spells with
    | same => exact ⟨rfl, by simp⟩
    | unbounded => exact ⟨rfl, Bool.false_ne_true⟩
    | @bounded digits m bound le =>
      have second : readBound (digits ++ '}' :: rest) = .ok (m, '}' :: rest) :=
        readBound_iff_spells.2 ⟨digits, rfl, bound, by rintro _ ⟨⟩; rfl⟩
      refine ⟨?_, by simpa using le⟩
      rw [List.cons_append, readMost.eq_2]
      · exact bind_eq_ok.2 ⟨_, second, rfl⟩
      · intro after eq
        obtain ⟨c, head, digit⟩ := bound.head? ('}' :: rest)
        rw [eq] at head
        cases head
        exact absurd digit (by decide)

/-- **Braces hold exactly the texts of the grammar**, whatever follows them. -/
theorem readBraces_iff_spells {q : Quantifier} : readBraces cs = .ok (q, rest) ↔
    ∃ w, cs = w ++ '}' :: rest ∧ SpellsBraces w q := by
  rw [readBraces_eq_ok_iff]
  obtain ⟨⟨least, most⟩, sameText⟩ := q
  constructor
  · rintro ⟨left, first, second, inOrder, same⟩
    obtain ⟨digits, eq, bound, -⟩ := readBound_iff_spells.1 first
    obtain ⟨tail, rfl, spells⟩ := readMost_iff_spells.1 ⟨second, inOrder⟩
    refine ⟨_, ?_, .intro sameText bound spells⟩
    subst same
    by_cases equals : cs.head? = some '='
    · have here : (cs.head? == some '=') = true := by simpa using equals
      obtain ⟨after, rfl⟩ : ∃ after, cs = '=' :: after := ⟨_, (List.cons_head?_tail equals).symm⟩
      rw [if_pos here] at eq ⊢
      simpa using eq
    · have here : ¬(cs.head? == some '=') = true := by simpa using equals
      rw [if_neg here] at eq ⊢
      simpa using eq
  · rintro ⟨w, rfl, spells⟩
    generalize eq : (⟨⟨least, most⟩, sameText⟩ : Quantifier) = q at spells
    obtain @⟨digits, tail, _, _, sameText, bound, after⟩ := spells
    cases eq
    obtain ⟨second, inOrder⟩ := readMost_iff_spells.2 ⟨tail, rfl, after⟩
    have first : readBound (digits ++ (tail ++ '}' :: rest)) = .ok (least, tail ++ '}' :: rest) :=
      readBound_iff_spells.2 ⟨digits, rfl, bound, after.stops rest⟩
    rw [List.append_assoc, List.append_assoc]
    cases sameText with
    | true => exact ⟨_, first, second, inOrder, rfl⟩
    | false =>
      -- a number does not begin with an equals sign
      obtain ⟨c, head, digit⟩ := bound.head? (tail ++ '}' :: rest)
      have other : ((digits ++ (tail ++ '}' :: rest)).head? == some '=') = false := by
        rw [head, beq_eq_false_iff_ne]
        rintro ⟨⟩
        exact absurd digit (by decide)
      refine ⟨_, ?_, second, inOrder, other.symm⟩
      rw [if_neg Bool.false_ne_true, List.nil_append, other, if_neg Bool.false_ne_true]
      exact first

end Reading

/-! ## A character and its bounds -/

/-- The phrase of a character with a quantifier behind it. -/
def Phrase.repeatedChar (x : Char) (q : Quantifier) : Phrase :=
  .piece ⟨false, false, false⟩ (.atom (.text [x])) (some q)

/-- The pattern of a character with a quantifier behind it. -/
def Compiled.repeatedChar (x : Char) (q : Quantifier) : Compiled where
  tree := { nodes := #[⟨.text [x], some 1⟩, ⟨.repetition 0 q.bounds q.sameText, none⟩] }
  root := 1
  candidates := []
  hasMarker := false

section

variable {M : Expansions} {x : Char} {cs rest : List Char} {φs : List Phrase}

theorem readAtom_before_brace (placed : x ∉ misplacedChars)
    (plain : x ∉ ['(', '[', '\\', '.', '^', '$']) :
    readAtom (x :: '\x7b' :: cs) = .ok (.text [x], '\x7b' :: cs) :=
  readAtom_text placed plain ('\x7b' :: cs)

/-- The atom in front of the brace is the character alone. -/
theorem Parses.atom_before_brace (placed : x ∉ misplacedChars)
    (plain : x ∉ ['(', '[', '\\', '.', '^', '$']) {φ : Phrase}
    (h : Parses M .atom (x :: '\x7b' :: cs) [φ] rest) :
    φ = .atom (.text [x]) ∧ rest = '\x7b' :: cs := by
  have reads : readAtom (x :: '\x7b' :: cs) = .ok (.text [x], '\x7b' :: cs) :=
    readAtom_before_brace placed plain
  cases h with
  | atom _ read =>
    cases reads.symm.trans read
    exact ⟨rfl, rfl⟩
  | expansion _ read => cases reads.symm.trans read
  | group => exact absurd List.mem_cons_self plain

/-- The quantifier behind the character is what the braces hold. -/
theorem readQuantifier_brace_eq_ok_iff {quantifier : Option Quantifier} :
    readQuantifier ('\x7b' :: cs) = .ok (quantifier, rest) ↔
      ∃ q, quantifier = some q ∧ readBraces cs = .ok (q, rest) ∧ rest.head? ≠ some '?' := by
  constructor
  · intro h
    obtain ⟨⟨greedy, left⟩, read, h⟩ := bind_eq_ok.1 h
    obtain ⟨⟨q, left⟩, braces, read⟩ := bind_eq_ok.1 read
    cases read
    dsimp only at h
    split at h
    · cases h
    · next eager =>
      cases h
      exact ⟨q, rfl, braces, fun lazy => eager ⟨rfl, lazy⟩⟩
  · rintro ⟨q, rfl, braces, eager⟩
    have greedy : readGreedy ('\x7b' :: cs) = .ok (some q, rest) :=
      bind_eq_ok.2 ⟨_, braces, rfl⟩
    refine bind_eq_ok.2 ⟨_, greedy, ?_⟩
    exact if_neg fun lazy => eager lazy.2

/-- A character and braces up to the end of the text are one piece. -/
theorem Parses.braces_iff (placed : x ∉ misplacedChars)
    (plain : x ∉ ['(', '[', '\\', '.', '^', '$'])
    (ends : ∀ q rest, readBraces cs = .ok (q, rest) → rest = []) :
    Parses M .branches (x :: '\x7b' :: cs) φs [] ↔
      ∃ q, readBraces cs = .ok (q, []) ∧ φs = [.branch [.repeatedChar x q]] := by
  have going : atBranchEnd (x :: '\x7b' :: cs) = false := by
    have paren : x ≠ ')' := fun eq => placed (by simp [eq, misplacedChars])
    have bar : x ≠ '|' := fun eq => placed (by simp [eq, misplacedChars])
    simp [atBranchEnd, paren, bar]
  have unmarked : atMarker (x :: '\x7b' :: cs) = false := by
    rw [atMarker_eq_false_iff]
    simp
  constructor
  · -- nothing is left behind the piece, so it is the only one of the only branch
    have single {φs : List Phrase} {rest : List Char}
        (pieces : Parses M .pieces (x :: '\x7b' :: cs) φs rest) :
        ∃ q, readBraces cs = .ok (q, []) ∧ φs = [.repeatedChar x q] ∧ rest = [] := by
      cases pieces with
      | nil stop => cases going.symm.trans stop
      | cons _ piece others =>
        cases piece with
        | piece inner read eq =>
          rw [unmarked] at inner ⊢
          obtain ⟨rfl, rfl⟩ := inner.atom_before_brace placed plain
          obtain ⟨q, rfl, braces, -⟩ := readQuantifier_brace_eq_ok_iff.1 read
          obtain rfl := ends q _ braces
          subst eq
          cases others with
          | nil => exact ⟨q, braces, rfl, rfl⟩
          | cons going => cases going
    intro h
    cases h with
    | last pieces =>
      obtain ⟨q, braces, rfl, -⟩ := single pieces
      exact ⟨q, braces, rfl⟩
    | more pieces => cases (single pieces).choose_spec.2.2
  · rintro ⟨q, braces, rfl⟩
    have inner : Parses M .atom (skipMarker (atMarker (x :: '\x7b' :: cs)) (x :: '\x7b' :: cs))
        [.atom (.text [x])] ('\x7b' :: cs) := by
      rw [unmarked]
      refine .atom ?_ (readAtom_before_brace placed plain) (by simp)
      rintro ⟨⟩
      exact plain List.mem_cons_self
    have read : readQuantifier ('\x7b' :: cs) = .ok (some q, []) :=
      readQuantifier_brace_eq_ok_iff.2 ⟨q, rfl, braces, by simp⟩
    have piece : Parses M .piece (x :: '\x7b' :: cs) [.repeatedChar x q] [] := by
      have piece := Parses.piece inner read rfl
      rwa [unmarked] at piece
    exact .last (.cons going piece (.nil rfl)) (by simp)

end

/-- What is made of a character and its bounds. -/
theorem Phrase.build_repeatedChar {x : Char} {q : Quantifier} {id : ℕ} {d : Draft} :
    (choice (branch [repeatedChar x q]) []).build {} = .ok id d ↔
      id = 1 ∧ d = { tree := (Compiled.repeatedChar x q).tree } := by
  have built : (choice (branch [repeatedChar x q]) []).build {} =
      .ok 1 { tree := (Compiled.repeatedChar x q).tree } := rfl
  rw [built]
  constructor
  · rintro ⟨⟩
    exact ⟨rfl, rfl⟩
  · rintro ⟨rfl, rfl⟩
    rfl

/-- A text in braces that has no closing brace of its own ends at the last one. -/
theorem eq_of_append_brace {w w' rest : List Char} (inside : '}' ∉ w)
    (eq : w ++ ['}'] = w' ++ '}' :: rest) : w' = w ∧ rest = [] := by
  obtain ⟨after, rfl, split⟩ | ⟨after, rfl, split⟩ := List.append_eq_append_iff.1 eq
  · cases after with
    | nil => exact ⟨List.append_nil w, (List.cons.inj split).2.symm⟩
    | cons c after => simp at split
  · cases after with
    | nil => exact ⟨(List.append_nil w').symm, (List.cons.inj split).2⟩
    | cons c after =>
      cases split
      exact absurd (by simp) inside

/-- **Braces behind a character are read exactly if they hold what the grammar allows**, and the
pattern is then one repetition of the character, with the bounds that the braces stand for. -/
theorem Compiled.ofPattern?_braces_iff {x : Char} {w : String} {c : Compiled}
    (placed : x ∉ misplacedChars) (plain : x ∉ ['(', '[', '\\', '.', '^', '$'])
    (inside : '}' ∉ w.toList) :
    ofPattern? (String.singleton x ++ "\x7b" ++ w ++ "\x7d") = .ok c ↔
      ∃ q, SpellsBraces w.toList q ∧ c = repeatedChar x q := by
  have text : (String.singleton x ++ "\x7b" ++ w ++ "\x7d").toList =
      x :: '\x7b' :: (w.toList ++ ['}']) := by
    simp
  have braces {q : Quantifier} {rest : List Char} :
      readBraces (w.toList ++ ['}']) = .ok (q, rest) ↔ rest = [] ∧ SpellsBraces w.toList q := by
    rw [readBraces_iff_spells]
    constructor
    · rintro ⟨w', eq, spells⟩
      obtain ⟨rfl, rfl⟩ := eq_of_append_brace inside eq
      exact ⟨rfl, spells⟩
    · rintro ⟨rfl, spells⟩
      exact ⟨_, rfl, spells⟩
  have parses {row : List Phrase} :
      Parses expansions .branches (x :: '\x7b' :: (w.toList ++ ['}'])) row [] ↔
        ∃ q, readBraces (w.toList ++ ['}']) = .ok (q, []) ∧ row = [.branch [.repeatedChar x q]] :=
    Parses.braces_iff placed plain fun q rest read => (braces.1 read).1
  rw [ofPattern?_eq_ok_iff, text]
  constructor
  · rintro ⟨φ, d, ⟨first, more, rfl, spells⟩, built, finished⟩
    obtain ⟨q, read, same⟩ := parses.1 spells
    cases same
    obtain ⟨root, rfl⟩ := Phrase.build_repeatedChar.1 built
    refine ⟨q, (braces.1 read).2, finished.symm.trans ?_⟩
    rw [root]
    rfl
  · rintro ⟨q, spells, rfl⟩
    have spelled := parses.2 ⟨q, braces.2 ⟨rfl, spells⟩, rfl⟩
    exact ⟨_, { tree := (repeatedChar x q).tree }, ⟨_, _, rfl, spelled⟩,
      Phrase.build_repeatedChar.2 ⟨rfl, rfl⟩, rfl⟩

/-- Leading zeros do not count. -/
theorem Compiled.ofPattern?_braces_of_zeros :
    'x' ∉ misplacedChars ∧ 'x' ∉ ['(', '[', '\\', '.', '^', '$'] ∧ '}' ∉ "=002,3".toList ∧
      ofPattern? (String.singleton 'x' ++ "\x7b" ++ "=002,3" ++ "\x7d") =
        .ok (repeatedChar 'x' { bounds := ⟨2, some 3⟩, sameText := true }) := by
  have two : SpellsBound ['0', '0', '2'] 2 := .intro (by decide) (by simp) (by decide)
  have three : SpellsBound ['3'] 3 := .intro (by decide) (by simp) (by decide)
  have spells : SpellsBraces "=002,3".toList { bounds := ⟨2, some 3⟩, sameText := true } :=
    .intro true two (.bounded three (by decide))
  exact ⟨by decide, by decide, by decide,
    (ofPattern?_braces_iff (by decide) (by decide) (by decide)).2 ⟨_, spells, rfl⟩⟩

end PatternSampler
