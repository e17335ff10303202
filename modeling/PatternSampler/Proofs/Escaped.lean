/-
# Texts as patterns

With a backslash in front of each punctuation character any text becomes a pattern for that text
alone.  It is read as a row of fixed texts: one for each escaped character, and one for each of the
longest runs in between.

* `escaped` : a text as a pattern.
* `Reading.exists_parses_escape` : how an escaped text is read.
* `Pattern.exists_escaped` : what it generates and matches.
-/
import PatternSampler.Proofs.Composition
import PatternSampler.Proofs.Reading.Building

namespace PatternSampler

open Reading

/-! ## Escaping -/

namespace Reading

/-- A text with a backslash in front of each punctuation character. -/
def escape : List Char → List Char
  | [] => []
  | c :: cs => if isPunctuation c then '\\' :: c :: escape cs else c :: escape cs

variable {c : Char}

/-- Every character with a meaning of its own is punctuation. -/
theorem notMem_metaChars (plain : isPunctuation c = false) : c ∉ metaChars := by
  have special : metaChars.all isPunctuation = true := by decide
  exact fun mem => Bool.false_ne_true (plain.symm.trans (List.all_eq_true.1 special c mem))

theorem escape_cons_of_isPunctuation (special : isPunctuation c = true) (cs : List Char) :
    escape (c :: cs) = '\\' :: c :: escape cs :=
  if_pos special

theorem escape_cons_of_not_isPunctuation (plain : isPunctuation c = false) (cs : List Char) :
    escape (c :: cs) = c :: escape cs :=
  if_neg (Bool.eq_false_iff.1 plain)

theorem escape_append_of_plain {used : List Char} (plain : ∀ c ∈ used, isPunctuation c = false)
    (cs : List Char) : escape (used ++ cs) = used ++ escape cs := by
  induction used with
  | nil => rfl
  | cons c used ih =>
    obtain ⟨first, others⟩ := List.forall_mem_cons.1 plain
    rw [List.cons_append, escape_cons_of_not_isPunctuation first, ih others, List.cons_append]

/-- An escaped text begins with a backslash or with a character that is no punctuation. -/
theorem head?_escape {cs : List Char} (head : (escape cs).head? = some c) :
    c = '\\' ∨ isPunctuation c = false := by
  cases cs with
  | nil => cases head
  | cons d cs =>
    rcases special : isPunctuation d with _ | _
    · rw [escape_cons_of_not_isPunctuation special] at head
      cases head
      exact .inr special
    · rw [escape_cons_of_isPunctuation special] at head
      cases head
      exact .inl rfl

/-- The backslash in front of a punctuation character makes no marker. -/
theorem atMarker_escape (cs : List Char) : atMarker (escape cs) = false := by
  rw [atMarker_eq_false_iff]
  intro rest eq
  cases cs with
  | nil => cases eq
  | cons c cs =>
    rcases special : isPunctuation c with _ | _
    · rw [escape_cons_of_not_isPunctuation special] at eq
      obtain rfl : c = '\\' := (List.cons.inj eq).1
      exact absurd special (by decide)
    · rw [escape_cons_of_isPunctuation special] at eq
      obtain rfl : c = 'i' := (List.cons.inj (List.cons.inj eq).2).1
      exact absurd special (by decide)

theorem readQuantifier_escape (cs : List Char) :
    readQuantifier (escape cs) = .ok (none, escape cs) := by
  refine readQuantifier_of_none fun c head mem => ?_
  rcases head?_escape head with rfl | plain
  · exact absurd mem (by decide)
  · have subset : quantifierChars ⊆ metaChars := by decide
    exact notMem_metaChars plain (subset mem)

/-! ## Atoms -/

/-- A punctuation character behind a backslash stands for itself. -/
theorem readEscape_of_isPunctuation (special : isPunctuation c = true) (cs : List Char) :
    readEscape (c :: cs) = .ok (.char c, cs) := by
  have other {d : Char} (plain : isPunctuation d = false) : c ≠ d :=
    ne_of_isPunctuation special plain
  unfold readEscape
  simp only [ofLetter?_of_isPunctuation special, escapedChar?_of_isPunctuation special]
  rw [if_neg, if_neg (not_isDigit_of_isPunctuation special), if_neg, if_neg, if_neg, if_neg]
  · rintro (eq | eq) <;> exact other rfl eq
  · exact other rfl
  · rintro (eq | eq | eq) <;> exact other rfl eq
  · exact other rfl
  · rintro (eq | eq | eq) <;> exact other rfl eq

/-- Characters that are no punctuation are read as one run, up to the next backslash. -/
theorem readAtom_escape_run (plain : isPunctuation c = false) (cs : List Char) :
    readAtom (escape (c :: cs)) = .ok (.text (c :: cs.takeWhile (!isPunctuation ·)),
      escape (cs.dropWhile (!isPunctuation ·))) := by
  have run : IsRun (c :: cs.takeWhile (!isPunctuation ·)) := by
    have misplaced : misplacedChars ⊆ metaChars := by decide
    have single : ['(', '[', '\\', '.', '^', '$'] ⊆ metaChars := by decide
    refine .intro (fun mem => notMem_metaChars plain (misplaced mem))
      (fun mem => notMem_metaChars plain (single mem)) fun d mem => ?_
    exact decide_eq_true (notMem_metaChars (by simpa using List.mem_takeWhile_imp mem))
  have stops : Stops isPlainChar (escape (cs.dropWhile (!isPunctuation ·))) := by
    -- what stops the run is punctuation, and a backslash stands in front of it
    rcases left : cs.dropWhile (!isPunctuation ·) with _ | ⟨d, ds⟩
    · exact nofun
    · have special : isPunctuation d = true := by
        have := stops_dropWhile (!isPunctuation ·) cs d (by rw [left]; rfl)
        simpa using this
      rw [escape_cons_of_isPunctuation special]
      rintro _ ⟨⟩
      decide
  rw [← readAtom_run run stops, ← escape_append_of_plain, List.cons_append,
    List.takeWhile_append_dropWhile]
  rintro d (_ | ⟨_, mem⟩)
  · exact plain
  · simpa using List.mem_takeWhile_imp mem

/-! ## The phrase of an escaped text -/

end Reading

/-- The phrase of a fixed text without quantifier and markers. -/
def Phrase.literal (chars : List Char) : Phrase :=
  .piece ⟨false, false, false⟩ (.atom (.text chars)) none

/-- **An escaped text is read as a row of fixed texts**, which make up the text again. -/
theorem Reading.exists_parses_escape (M : Expansions) (cs : List Char) :
    ∃ texts : List (List Char), texts.flatten = cs ∧
      Parses M .pieces (escape cs) (texts.map Phrase.literal) [] := by
  -- a run may take away any number of characters, so the induction is on the length
  induction len : cs.length using Nat.strong_induction_on generalizing cs with
  | h n ih =>
    cases cs with
    | nil => exact ⟨[], rfl, .nil rfl⟩
    | cons c cs =>
      subst len
      -- whatever the first atom is, it has neither quantifier nor markers
      have first {rest chars : List Char} (read : readAtom (escape (c :: cs)) =
          .ok (.text chars, escape rest)) (short : rest.length < (c :: cs).length)
          (split : chars ++ rest = c :: cs) (going : atBranchEnd (escape (c :: cs)) = false)
          (group : (escape (c :: cs)).head? ≠ some '(') :
          ∃ texts : List (List Char), texts.flatten = c :: cs ∧
            Parses M .pieces (escape (c :: cs)) (texts.map Phrase.literal) [] := by
        obtain ⟨texts, flat, parses⟩ := ih _ short rest rfl
        have piece : Parses M .piece (escape (c :: cs)) [Phrase.literal chars] (escape rest) :=
          Parses.piece_of_atMarker (.atom group read (fun name eq => by cases eq))
            (readQuantifier_escape rest) (atMarker_escape _) (atMarker_escape _) (atMarker_escape _)
        exact ⟨chars :: texts, by rw [List.flatten_cons, flat, split], .cons going piece parses⟩
      rcases special : isPunctuation c with _ | _
      · have other {d : Char} (mark : isPunctuation d = true) : c ≠ d :=
          (ne_of_isPunctuation mark special).symm
        refine first (readAtom_escape_run special cs) ?_ ?_ ?_ ?_
        · exact Nat.lt_succ_of_le (List.dropWhile_suffix _).length_le
        · rw [List.cons_append, List.takeWhile_append_dropWhile]
        · rw [escape_cons_of_not_isPunctuation special]
          simp [atBranchEnd, other (d := ')') rfl, other (d := '|') rfl]
        · rw [escape_cons_of_not_isPunctuation special]
          rintro ⟨⟩
          exact other rfl rfl
      · have read : readAtom (escape (c :: cs)) = .ok (.text [c], escape cs) := by
          rw [escape_cons_of_isPunctuation special]
          exact bind_eq_ok.2 ⟨_, readEscape_of_isPunctuation special _, rfl⟩
        refine first read (Nat.lt_succ_self _) rfl ?_ ?_ <;>
          rw [escape_cons_of_isPunctuation special]
        · rfl
        · rintro ⟨⟩

/-! ## Rows of fixed texts -/

namespace Expr

/-- A row of fixed texts matches what they make up. -/
theorem language_row_texts (texts : List (List Char)) :
    (row (texts.map (text 0))).language = {texts.flatten} := by
  rw [language_row]
  induction texts with
  | nil => rfl
  | cons chars texts ih =>
    rw [List.map_cons, languageAll, ih, language, List.flatten_cons]
    exact Set.image2_singleton

variable {σ : Type} [RandomSource σ]

/-- Fixed texts are put together without a draw. -/
theorem generateAll_of_bareAll (settings : Settings) {es : List Expr} {texts : List (List Char)}
    (bare : bareAll es = texts.map (text 0)) (g : GenerationState σ) :
    generateAll settings {} es g = .ok texts.flatten g := by
  induction es generalizing texts with
  | nil =>
    obtain rfl := List.map_eq_nil_iff.1 bare.symm
    rfl
  | cons e es ih =>
    obtain ⟨chars, texts, rfl, first, others⟩ := List.map_eq_cons_iff.1 bare.symm
    cases e with
    | text id chars =>
      cases first
      rw [generateAll, bind_eq_ok_iff]
      exact ⟨chars, g, rfl, bind_eq_ok_iff.2 ⟨_, g, ih others.symm, rfl⟩⟩
    | _ => cases first

/-- A row of fixed texts, wherever its nodes stand, generates what they make up. -/
theorem generate_of_bare_row (settings : Settings) {e : Expr} {texts : List (List Char)}
    (bare : e.bare = row (texts.map (text 0))) (g : GenerationState σ) :
    e.generate settings {} g = .ok texts.flatten g := by
  match texts, e with
  | [], .text id chars =>
    cases bare
    rfl
  | [chars], .text id chars' =>
    cases bare
    rw [List.flatten_cons, List.flatten_nil, List.append_nil]
    rfl
  | chars :: chars' :: texts, .concat id parts =>
    obtain ⟨-, parts⟩ := Expr.concat.inj bare
    exact generateAll_of_bareAll settings parts g
  | [], .set .. | [], .concat .. | [], .alternation .. | [], .repetition .. | [], .group ..
  | [], .backref .. | [_], .set .. | [_], .concat .. | [_], .alternation ..
  | [_], .repetition .. | [_], .group .. | [_], .backref .. | _ :: _ :: _, .text ..
  | _ :: _ :: _, .set .. | _ :: _ :: _, .alternation .. | _ :: _ :: _, .repetition ..
  | _ :: _ :: _, .group .. | _ :: _ :: _, .backref .. => cases bare

end Expr

namespace Phrase

theorem outlineAll_literal (texts : List (List Char)) :
    outlineAll (texts.map literal) = texts.map (Expr.text 0) := by
  rw [outlineAll_eq_map, List.map_map]
  rfl

theorem unmarked_literal (chars : List Char) : (literal chars).Unmarked :=
  .piece .atom

end Phrase

/-- A phrase without markers and backreferences is a pattern without marked nodes. -/
theorem Phrase.Unmarked.exists_of_spells {φ : Phrase} (unmarked : φ.Unmarked) {pattern : String}
    (spells : φ.Spells expansions pattern.toList) (plain : φ.outline.Scoped Set.univ) :
    ∃ c, Compiled.ofPattern? pattern = .ok c ∧ c.expr.bare = φ.outline ∧ c.hasMarker = false ∧
      c.candidates = [] := by
  obtain ⟨c, d, h⟩ := spells.exists_finishes plain
  have clean : d.Clean := unmarked.clean h.built ⟨rfl, rfl, rfl⟩
  have finished := h.finished
  refine ⟨c, h.read, h.bare_expr, ?_, ?_⟩
  · rw [← finished]
    exact clean.hasMarker
  · rw [← finished]
    exact congrArg Array.toList clean.candidates

/-! ## Patterns -/

/-- A text as a pattern: a backslash stands in front of each punctuation character. -/
def escaped (text : String) : String :=
  String.ofList (escape text.toList)

namespace Pattern

/-- **Any text can be escaped.**  The pattern that it becomes has no markers, generates that text
without a draw and matches nothing else. -/
theorem exists_escaped (text : String) : ∃ p, ofString? (escaped text) = .ok p ∧
    p.isInvalidating = false ∧ p.compiled.candidates = [] ∧
    (∀ {σ : Type} [RandomSource σ] (settings : Settings) (g : σ),
      p.generate settings g = (.ok text, p, g)) ∧
    ∀ input, (p.fullMatch input).1 = true ↔ input = text := by
  obtain ⟨texts, flat, parses⟩ := exists_parses_escape expansions text.toList
  have source : (escaped text).toList = escape text.toList := String.toList_ofList
  let φ : Phrase := .choice (.branch (texts.map .literal)) []
  have spells : φ.Spells expansions (escaped text).toList :=
    ⟨_, _, rfl, source ▸ .last parses nofun⟩
  have outline : φ.outline = .row (texts.map (Expr.text 0)) :=
    congrArg Expr.row (Phrase.outlineAll_literal texts)
  have plain : φ.outline.Scoped Set.univ := by
    rw [outline, Expr.scoped_row, List.forall_mem_map]
    exact fun chars _ => .text
  have unmarked : φ.Unmarked :=
    .choice (.branch (List.forall_mem_map.2 fun chars _ => Phrase.unmarked_literal chars)) nofun
  obtain ⟨c, read, bare, noMarker, noCandidate⟩ := unmarked.exists_of_spells spells plain
  let p : Pattern := { source := escaped text, compiled := c }
  have opened : ofString? (escaped text) = .ok p := by
    rw [ofString?, read]
  have noMarker : p.isInvalidating = false := noMarker
  have bare : p.compiled.expr.bare = .row (texts.map (Expr.text 0)) := bare.trans outline
  refine ⟨p, opened, noMarker, noCandidate, ?_, ?_⟩
  · intro σ _ settings g
    rw [generate_of_unmarked noMarker, Expr.generate_of_bare_row settings bare, flat]
    dsimp only
    rw [String.ofList_toList]
  · intro input
    have sees : p.compiled.expr.Scoped Set.univ := by
      rwa [outline, ← bare, Expr.scoped_bare_iff] at plain
    rw [(InUse.read opened).fullMatch_iff_of_scoped sees, ← Expr.language_bare, bare,
      Expr.language_row_texts, flat]
    exact Set.mem_singleton_iff.trans String.toList_inj

end Pattern

end PatternSampler
