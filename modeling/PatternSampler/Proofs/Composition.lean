/-
# Patterns made of patterns

Patterns can be put together as texts: with a bar between them, in parentheses one after the other,
or in parentheses with a quantifier.  What the whole matches is put together in the same way of what
the parts match, as long as no group is referred to.

* `Pattern.Recognizes` : a text is a pattern that matches the words of a language.
* `Phrase.spells_bar`, `Phrase.spells_piece`, `Phrase.spells_pair` : how composed texts are read.
* `Pattern.recognizes_composed` : what they match.
-/
import PatternSampler.Proofs.Pattern
import PatternSampler.Proofs.Reading.Framing
import PatternSampler.Proofs.Reading.Outline

namespace PatternSampler

open Reading

/-! ## Composed texts -/

namespace Phrase

variable {M : Expansions} {cs qs : List Char} {first first' : Phrase} {more more' : List Phrase}

/-- The phrase of two patterns with a bar between them. -/
theorem spells_bar (p : (choice first more).Spells M cs) (q : (choice first' more').Spells M qs) :
    (choice first (more ++ first' :: more')).Spells M (cs ++ '|' :: qs) := by
  obtain ⟨_, _, ⟨⟩, parses⟩ := p
  obtain ⟨_, _, ⟨⟩, parses'⟩ := q
  exact ⟨_, _, rfl, parses.branches_append parses'⟩

/-- The phrase of a single piece. -/
theorem spells_piece {φ : Phrase} (piece : Parses M .piece cs [φ] [])
    (going : atBranchEnd cs = false) :
    (choice (branch [φ]) []).Spells M cs :=
  ⟨_, _, rfl, .last (.cons going piece (.nil rfl)) nofun⟩

/-- The phrase of two pieces. -/
theorem spells_pair {φ ψ : Phrase} (piece : Parses M .piece cs [φ] qs)
    (piece' : Parses M .piece qs [ψ] []) (going : atBranchEnd cs = false)
    (going' : atBranchEnd qs = false) : (choice (branch [φ, ψ]) []).Spells M cs :=
  ⟨_, _, rfl, .last (.cons going piece (.cons going' piece' (.nil rfl))) nofun⟩

end Phrase

/-! ## Quantifiers -/

namespace Reading

theorem isDigit_of_mem_toDigits {n : ℕ} {c : Char} (mem : c ∈ Nat.toDigits 10 n) :
    c.isDigit = true :=
  Nat.isDigit_of_mem_toDigits (by decide) (by decide) mem

theorem numberOf_toDigits (n : ℕ) : numberOf 10 (Nat.toDigits 10 n) = n := by
  rw [numberOf_eq_ofDigitChars fun _ => isDigit_of_mem_toDigits]
  exact Nat.ofDigitChars_toDigits (by decide) le_rfl

/-- A printed number begins with a digit. -/
theorem head?_toDigits_append (n : ℕ) (tail : List Char) {c : Char} (other : c.isDigit = false) :
    (Nat.toDigits 10 n ++ tail).head? ≠ some c := by
  obtain ⟨d, ds, digits⟩ := List.exists_cons_of_ne_nil (Nat.toDigits_ne_nil (n := n) (b := 10))
  have digit : d.isDigit = true := isDigit_of_mem_toDigits (digits ▸ List.mem_cons_self)
  rw [digits]
  rintro ⟨⟩
  exact Bool.false_ne_true (other.symm.trans digit)

/-- A number that is not too large is read as a bound if it is printed in decimal. -/
theorem readBound_toDigits {n : ℕ} (small : n ≤ maxBound) {rest : List Char}
    (stops : Stops Char.isDigit rest) : readBound (Nat.toDigits 10 n ++ rest) = .ok (n, rest) := by
  have value := numberOf_toDigits n
  have read := readBound_append (fun _ => isDigit_of_mem_toDigits) Nat.toDigits_ne_nil
    (by rwa [value]) stops
  rwa [value] at read

/-- Bounds in braces, of which the least one is printed in decimal. -/
theorem readQuantifier_braces {n : ℕ} {most : Option ℕ} {tail : List Char} (small : n ≤ maxBound)
    (stops : Stops Char.isDigit tail) (second : readMost n tail = .ok (most, ['\x7d']))
    (inOrder : ¬(most.any (· < n)) = true) :
    readQuantifier ('\x7b' :: (Nat.toDigits 10 n ++ tail)) =
      .ok (some { bounds := ⟨n, most⟩ }, []) := by
  have noEquals : ((Nat.toDigits 10 n ++ tail).head? == some '=') = false := by
    simpa using head?_toDigits_append n tail (c := '=') rfl
  have braces : readBraces (Nat.toDigits 10 n ++ tail) = .ok ({ bounds := ⟨n, most⟩ }, []) := by
    apply readBraces_eq_ok_iff.2
    rw [noEquals]
    exact ⟨tail, readBound_toDigits small stops, second, inOrder, rfl⟩
  have greedy : readGreedy ('\x7b' :: (Nat.toDigits 10 n ++ tail)) =
      .ok (some { bounds := ⟨n, most⟩ }, []) := bind_eq_ok.2 ⟨_, braces, rfl⟩
  exact bind_eq_ok.2 ⟨_, greedy, rfl⟩

/-- A least number of times. -/
theorem readQuantifier_atLeast {n : ℕ} (small : n ≤ maxBound) :
    readQuantifier ('\x7b' :: (Nat.toDigits 10 n ++ [',', '\x7d'])) =
      .ok (some { bounds := ⟨n, none⟩ }, []) :=
  readQuantifier_braces small (by rintro _ ⟨⟩; rfl) rfl Bool.false_ne_true

/-- A least and a greatest number of times. -/
theorem readQuantifier_between {n m : ℕ} (le : n ≤ m) (small : m ≤ maxBound) :
    readQuantifier ('\x7b' :: (Nat.toDigits 10 n ++ ',' :: (Nat.toDigits 10 m ++ ['\x7d']))) =
      .ok (some { bounds := ⟨n, some m⟩ }, []) := by
  have bound : readBound (Nat.toDigits 10 m ++ ['\x7d']) = .ok (m, ['\x7d']) :=
    readBound_toDigits small (by rintro _ ⟨⟩; rfl)
  apply readQuantifier_braces (le.trans small)
  · rintro _ ⟨⟩
    rfl
  · rw [readMost.eq_2]
    · exact bind_eq_ok.2 ⟨_, bound, rfl⟩
    · intro rest eq
      exact head?_toDigits_append m ['\x7d'] rfl (congrArg List.head? eq)
  · simpa using le

end Reading

/-! ## What composed patterns match -/

namespace Pattern

/-- A text is a pattern, and what matches it are the words of a language. -/
def Recognizes (source : String) (L : Language Char) : Prop :=
  ∃ p, ofString? source = .ok p ∧ ∀ text : String, (p.fullMatch text).1 = true ↔ text.toList ∈ L

/-- The whole strings that match a pattern. -/
def matched (p : Pattern) : Language Char :=
  {w | (p.fullMatch (String.ofList w)).1 = true}

/-- No group is referred to in a pattern. -/
def NoBackref (p : Pattern) : Prop :=
  ∀ id target, p.compiled.tree.shape? id ≠ some (.backref target)

variable {source : String} {p : Pattern}

/-- A phrase of some text that has no backreferences and stands for the words of a language. -/
structure Denotes (first : Phrase) (more : List Phrase) (cs : List Char) (L : Language Char) :
    Prop where
  parses : Parses expansions .branches cs (first :: more) []
  plain : (Phrase.choice first more).outline.Scoped Set.univ
  language : (Phrase.choice first more).outline.language = L

theorem exists_denotes (read : ofString? source = .ok p) (plain : p.NoBackref) :
    ∃ first more, Denotes first more source.toList p.matched := by
  have h : InUse source p := .read read
  obtain ⟨_, ⟨first, more, rfl, parses⟩, outline⟩ := Compiled.exists_phrase h.invariant.2.1
  have sees : p.compiled.expr.Scoped Set.univ :=
    Tree.scoped_univ h.wellFormed.ordered h.wellFormed.branches plain p.compiled.root
  refine ⟨first, more, parses, ?_, ?_⟩
  · rw [← outline]
    exact (Expr.scoped_bare_iff _).2 sees
  · rw [← outline, Expr.language_bare]
    ext w
    refine Iff.trans ?_ (h.fullMatch_iff_of_scoped sees (String.ofList w)).symm
    rw [String.toList_ofList]

theorem recognizes_of_spells {φ : Phrase} (spells : φ.Spells expansions source.toList)
    (plain : φ.outline.Scoped Set.univ) : Recognizes source φ.outline.language := by
  obtain ⟨c, read, outline⟩ := Compiled.exists_of_spells spells plain
  have opened : ofString? source = .ok { source, compiled := c } := by
    rw [ofString?, read]
  have sees : c.expr.Scoped Set.univ := by
    rwa [← outline, Expr.scoped_bare_iff] at plain
  refine ⟨_, opened, fun text => ?_⟩
  rw [(InUse.read opened).fullMatch_iff_of_scoped sees, ← outline, Expr.language_bare]

namespace Denotes

variable {first first' : Phrase} {more more' : List Phrase} {cs qs head after rest : List Char}
  {L L' : Language Char} {kind : GroupKind} {quantifier : Option Quantifier}

/-- Two patterns with a bar between them match what one of them matches. -/
theorem bar (p : Denotes first more cs L) (q : Denotes first' more' qs L')
    (text : source.toList = cs ++ '|' :: qs) : Recognizes source (L + L') := by
  have spells : (Phrase.choice first (more ++ first' :: more')).Spells expansions source.toList :=
    text ▸ Phrase.spells_bar ⟨_, _, rfl, p.parses⟩ ⟨_, _, rfl, q.parses⟩
  have plain := Expr.scoped_oneOf.1 p.plain
  have plain' := Expr.scoped_oneOf.1 q.plain
  have language : (Phrase.choice first (more ++ first' :: more')).outline.language = L + L' := by
    rw [← p.language, ← q.language, Phrase.outline, Phrase.outline, Phrase.outline,
      Expr.language_oneOf, Expr.language_oneOf, Expr.language_oneOf, ← Expr.languageAny_append,
      Phrase.outlineAll_eq_map, Phrase.outlineAll_eq_map, Phrase.outlineAll_eq_map,
      List.map_append, List.map_cons, List.cons_append]
  rw [← language]
  refine recognizes_of_spells spells (Expr.scoped_oneOf.2 ⟨plain.1, ?_⟩)
  rw [Phrase.outlineAll_eq_map] at plain plain' ⊢
  rw [List.map_append, List.map_cons]
  exact List.forall_mem_append.2 ⟨plain.2, List.forall_mem_cons.2 plain'⟩

/-- The words of a part, with a quantifier behind it. -/
def words (quantifier : Option Quantifier) (L : Language Char) : Language Char :=
  quantifier.elim L fun q => q.bounds.words L

theorem plain_parenthesized (p : Denotes first more cs L) (kind : GroupKind)
    (quantifier : Option Quantifier) :
    (Phrase.parenthesized kind (.choice first more) quantifier).outline.Scoped Set.univ := by
  cases quantifier with
  | none => exact .group p.plain
  | some q => exact .repetition (.group p.plain)

theorem language_parenthesized (p : Denotes first more cs L) (kind : GroupKind)
    (quantifier : Option Quantifier) :
    (Phrase.parenthesized kind (.choice first more) quantifier).outline.language =
      words quantifier L := by
  cases quantifier with
  | none => exact p.language
  | some q => exact congrArg q.bounds.words p.language

/-- A pattern in parentheses, with a quantifier behind them. -/
theorem group (p : Denotes first more cs L) (head : List Char)
    (opens : readGroupHead (head ++ (cs ++ ')' :: after)) = .ok (kind, cs ++ ')' :: after))
    (read : readQuantifier after = .ok (quantifier, [])) (noMarker : atMarker after = false)
    (text : source.toList = '(' :: (head ++ (cs ++ ')' :: after))) :
    Recognizes source (words quantifier L) := by
  have piece := p.parses.group_piece head opens read noMarker rfl
  rw [← text] at piece
  have going : atBranchEnd source.toList = false := by rw [text]; rfl
  have recognizes := recognizes_of_spells (Phrase.spells_piece piece going)
    (p.plain_parenthesized kind quantifier)
  change Recognizes source
    (Phrase.parenthesized kind (.choice first more) quantifier).outline.language at recognizes
  rwa [p.language_parenthesized] at recognizes

/-- A pattern in parentheses that keep their text. -/
theorem numbered (p : Denotes first more cs L) (text : source.toList = '(' :: (cs ++ [')'])) :
    Recognizes source L := by
  have ends : EndsBranch [')'] := by
    rintro _ ⟨⟩
    exact .inl rfl
  have opens : readGroupHead (cs ++ [')']) = .ok (.numbered, cs ++ [')']) :=
    readGroupHead_of_ne (ends.head?_ne p.parses.head?_ne_question (by decide) (by decide))
  exact p.group [] opens rfl rfl text

/-- Two patterns in parentheses one after the other. -/
theorem pair (p : Denotes first more cs L) (q : Denotes first' more' qs L')
    (text : source.toList = "(?:".toList ++ (cs ++ ')' :: ("(?:".toList ++ (qs ++ [')'])))) :
    Recognizes source (L * L') := by
  have here : Parses expansions .piece ("(?:".toList ++ (qs ++ [')']))
      [.parenthesized .plain (.choice first' more') none] [] :=
    q.parses.group_piece ['?', ':'] rfl rfl rfl rfl
  have before : Parses expansions .piece source.toList
      [.parenthesized .plain (.choice first more) none] ("(?:".toList ++ (qs ++ [')'])) :=
    text ▸ p.parses.group_piece ['?', ':'] rfl rfl rfl rfl
  have going : atBranchEnd source.toList = false := by rw [text]; rfl
  have plain : ∀ e ∈ [(Phrase.parenthesized .plain (.choice first more) none).outline,
      (Phrase.parenthesized .plain (.choice first' more') none).outline], e.Scoped Set.univ := by
    rw [List.forall_mem_cons, List.forall_mem_singleton]
    exact ⟨p.plain_parenthesized .plain none, q.plain_parenthesized .plain none⟩
  have language := Expr.language_row [
    (Phrase.parenthesized .plain (.choice first more) none).outline,
    (Phrase.parenthesized .plain (.choice first' more') none).outline]
  rw [Expr.languageAll, Expr.languageAll, Expr.languageAll, mul_one, p.language_parenthesized,
    q.language_parenthesized] at language
  exact language ▸
    recognizes_of_spells (Phrase.spells_pair before here going rfl) (Expr.scoped_row.2 plain)

theorem words_any (L : Language Char) :
    words (some { bounds := ⟨0, none⟩ }) L = {w | ∃ k, w ∈ L ^ k} := by
  ext w
  show (∃ k, Bounds.Allows ⟨0, none⟩ k ∧ w ∈ L ^ k) ↔ ∃ k, w ∈ L ^ k
  refine exists_congr fun k => and_iff_right ?_
  simp [Bounds.Allows]

theorem words_atLeast (n : ℕ) (L : Language Char) :
    words (some { bounds := ⟨n, none⟩ }) L = {w | ∃ k, n ≤ k ∧ w ∈ L ^ k} := by
  ext w
  show (∃ k, Bounds.Allows ⟨n, none⟩ k ∧ w ∈ L ^ k) ↔ ∃ k, n ≤ k ∧ w ∈ L ^ k
  refine exists_congr fun k => and_congr_left fun _ => ?_
  simp [Bounds.Allows]

theorem words_between {n m : ℕ} (le : n ≤ m) (L : Language Char) :
    words (some { bounds := ⟨n, some m⟩ }) L = {w | ∃ k, n ≤ k ∧ k ≤ m ∧ w ∈ L ^ k} := by
  ext w
  show (∃ k, Bounds.Allows ⟨n, some m⟩ k ∧ w ∈ L ^ k) ↔ ∃ k, n ≤ k ∧ k ≤ m ∧ w ∈ L ^ k
  refine exists_congr fun k => ?_
  rw [← and_assoc]
  refine and_congr_left fun _ => and_congr_right fun _ => ?_
  simpa using fun h : k ≤ n => h.trans le

/-- A pattern in parentheses that keep nothing, with a quantifier behind them. -/
theorem repeated (p : Denotes first more cs L) (read : readQuantifier after = .ok (quantifier, []))
    (noMarker : atMarker after = false)
    (text : source.toList = "(?:".toList ++ (cs ++ ')' :: after)) :
    Recognizes source (words quantifier L) :=
  p.group ['?', ':'] rfl read noMarker text

end Denotes

/-- **What composed patterns match is composed of what their parts match**, as long as these have no
backreferences. -/
theorem recognizes_composed {p q : String} {P Q : Pattern} (readP : ofString? p = .ok P)
    (readQ : ofString? q = .ok Q) (plainP : P.NoBackref) (plainQ : Q.NoBackref) {n m : ℕ}
    (le : n ≤ m) (small : m ≤ 100000) :
    Recognizes (p ++ "|" ++ q) (P.matched + Q.matched) ∧
      Recognizes ("(?:" ++ p ++ ")(?:" ++ q ++ ")") (P.matched * Q.matched) ∧
      Recognizes ("(" ++ p ++ ")") P.matched ∧
      Recognizes ("(?:" ++ p ++ ")*") {w | ∃ k, w ∈ P.matched ^ k} ∧
      Recognizes ("(?:" ++ p ++ ")\x7b" ++ toString n ++ ",\x7d")
        {w | ∃ k, n ≤ k ∧ w ∈ P.matched ^ k} ∧
      Recognizes ("(?:" ++ p ++ ")\x7b" ++ toString n ++ "," ++ toString m ++ "\x7d")
        {w | ∃ k, n ≤ k ∧ k ≤ m ∧ w ∈ P.matched ^ k} := by
  obtain ⟨first, more, denotes⟩ := exists_denotes readP plainP
  obtain ⟨first', more', denotes'⟩ := exists_denotes readQ plainQ
  refine ⟨?_, ?_, ?_, ?_, ?_, ?_⟩
  · exact denotes.bar denotes' (by simp)
  · exact denotes.pair denotes' (by simp)
  · exact denotes.numbered (by simp)
  · have star : readQuantifier ['*'] = .ok (some { bounds := ⟨0, none⟩ }, []) := rfl
    rw [← Denotes.words_any]
    exact denotes.repeated star rfl (by simp)
  · rw [← Denotes.words_atLeast]
    exact denotes.repeated (readQuantifier_atLeast (le.trans small)) rfl (by simp)
  · rw [← Denotes.words_between le]
    exact denotes.repeated (readQuantifier_between le small) rfl (by simp)

/-- A choice, repeated once or twice, and one more branch of it. -/
theorem recognizes_composed_choice : ∃ P Q : Pattern, ofString? "a|b" = .ok P ∧
    ofString? "c" = .ok Q ∧ P.NoBackref ∧ Q.NoBackref ∧
    Recognizes "a|b|c" (P.matched + Q.matched) ∧
    Recognizes "(?:a|b)\x7b1,2\x7d" {w | ∃ k, 1 ≤ k ∧ k ≤ 2 ∧ w ∈ P.matched ^ k} := by
  have run : (ofString? "a|b").toOption.map (fun p => p.compiled.tree.nodes.all
      (fun node => node.shape.references = node.shape.children)) = some true := by
    decide +kernel
  have run' : (ofString? "c").toOption.map (fun p => p.compiled.tree.nodes.all
      (fun node => node.shape.references = node.shape.children)) = some true := by
    decide +kernel
  have plain {p : Pattern} (own : p.compiled.tree.nodes.all
      (fun node => node.shape.references = node.shape.children) = true) : p.NoBackref := by
    intro id target look
    have none := Tree.shape_of_all (f := fun shape => shape.references = shape.children) own look
    cases of_decide_eq_true none
  obtain ⟨P, read, own⟩ := exists_read run
  obtain ⟨Q, read', own'⟩ := exists_read run'
  have composed := recognizes_composed read read' (plain own) (plain own')
    (show 1 ≤ 2 by decide) (by decide)
  exact ⟨P, Q, read, read', plain own, plain own', composed.1, composed.2.2.2.2.2⟩

end Pattern

end PatternSampler
