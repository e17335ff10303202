/-
# Phrases in parentheses

Where a macro is written out, what it stands for is a phrase in parentheses that do not capture.
The rest of a text is taken apart as before.

* `Phrase.Encloses` : in a phrase some parts are put in parentheses.
* `Parses.expands` : what becomes of phrases if macros are written out.
* `Phrase.Spells.expands` : what becomes of a whole text.
-/
import PatternSampler.Proofs.Reading.Macros

namespace PatternSampler

open Reading

/-! ## Parts in parentheses -/

namespace Phrase

/-- A phrase that begins with a set, as the phrases do that macros stand for. -/
def StartsWithSet (φ : Phrase) : Prop :=
  ∃ marks s quantifier others more,
    φ = choice (branch (piece marks (atom (.set s)) quantifier :: others)) more

/-- Phrases become others because some parts are put in parentheses that do not capture.  Only a
part that begins with a set is, and only if it is allowed; in such a part none is. -/
inductive Encloses : (allowed : Bool) → List Phrase → List Phrase → Prop
  | nil {allowed : Bool} : Encloses allowed [] []
  | cons {allowed : Bool} {φ φ' : Phrase} {φs φs' : List Phrase} :
      Encloses allowed [φ] [φ'] → Encloses allowed φs φs' → Encloses allowed (φ :: φs) (φ' :: φs')
  | atom {allowed : Bool} (a : Atom) : Encloses allowed [atom a] [atom a]
  | group {allowed : Bool} {φ φ' : Phrase} (kind : GroupKind) :
      Encloses allowed [φ] [φ'] → Encloses allowed [group kind φ] [group kind φ']
  | piece {allowed : Bool} {φ φ' : Phrase} (marks : Marks) (quantifier : Option Quantifier) :
      Encloses allowed [φ] [φ'] →
      Encloses allowed [piece marks φ quantifier] [piece marks φ' quantifier]
  | branch {allowed : Bool} {φs φs' : List Phrase} :
      Encloses allowed φs φs' → Encloses allowed [branch φs] [branch φs']
  | choice {allowed : Bool} {φ φ' : Phrase} {φs φs' : List Phrase} :
      Encloses allowed (φ :: φs) (φ' :: φs') → Encloses allowed [choice φ φs] [choice φ' φs']
  | enclose {φ : Phrase} :
      φ.StartsWithSet → Encloses false [φ] [φ] → Encloses true [φ] [.group .plain φ]

variable {allowed : Bool} {φ : Phrase} {φs φs' : List Phrase}

theorem Encloses.forall_refl (each : ∀ φ ∈ φs, Encloses allowed [φ] [φ]) :
    Encloses allowed φs φs := by
  induction φs with
  | nil => exact .nil
  | cons φ φs ih =>
    obtain ⟨head, tail⟩ := List.forall_mem_cons.1 each
    exact .cons head (ih tail)

/-- All parts may stay what they are. -/
theorem Encloses.refl (allowed : Bool) (φ : Phrase) : Encloses allowed [φ] [φ] := by
  induction φ using Phrase.induct with
  | atom a => exact .atom a
  | group kind body ih => exact .group kind ih
  | piece marks body quantifier ih => exact .piece marks quantifier ih
  | branch pieces ih => exact .branch (.forall_refl ih)
  | choice first more ih ih' => exact .choice (.cons ih (.forall_refl ih'))

/-- There are as many phrases as before. -/
theorem Encloses.exists_eq_cons (h : Encloses allowed (φ :: φs) φs') :
    ∃ φ' others, φs' = φ' :: others := by
  cases h <;> exact ⟨_, _, rfl⟩

end Phrase

/-! ## What macros stand for -/

section

variable {M M' : Expansions} {level : Level} {cs cs' rest : List Char} {φs : List Phrase}
  {name : String} {φ : Phrase}

/-- What macros may stand for counts only where there are some. -/
theorem Parses.mono (h : Parses M level cs φs rest) (le : ∀ name φ, M name φ → M' name φ) :
    Parses M' level cs φs rest := by
  induction h with
  | atom group read plain => exact .atom group read plain
  | expansion group read means => exact .expansion group read (le _ _ means)
  | group head _ ih => exact .group head ih
  | piece _ read eq ih => exact .piece ih read eq
  | nil stop => exact .nil stop
  | cons going _ _ ih ih' => exact .cons going ih ih'
  | last _ bar ih => exact .last ih bar
  | more _ _ ih ih' => exact .more ih ih'

/-- The patterns that macros stand for begin with a set. -/
theorem exists_bracket_of_expansion? {text : String} (found : expansion? name = some text) :
    ∃ tail, text.toList = '[' :: tail ∧ tail.head? ≠ some ':' := by
  have all : (macros.all fun entry =>
      entry.2.toList.head? == some '[' && entry.2.toList.tail.head? != some ':') = true := by
    decide +kernel
  have begins := List.all_eq_true.1 all _ (mem_macros_of_expansion? found)
  rw [Bool.and_eq_true, beq_iff_eq, bne_iff_ne] at begins
  exact ⟨text.toList.tail, (List.cons_head?_tail begins.1).symm, begins.2⟩

/-- What begins with a bracket and has no macro begins with a set. -/
theorem Parses.exists_set {tail : List Char} (bracket : cs = '[' :: tail)
    (set : tail.head? ≠ some ':') (h : Parses M .atom cs [φ] rest) : ∃ s, φ = .atom (.set s) := by
  subst bracket
  have unfolded : readAtom ('[' :: tail) = _ :=
    readAtom.eq_3 tail fun rest eq => set (by rw [eq]; rfl)
  cases h with
  | atom _ read =>
    rw [unfolded] at read
    obtain ⟨⟨s, left⟩, -, same⟩ := bind_eq_ok.1 read
    cases same
    exact ⟨s, rfl⟩
  | expansion _ read =>
    rw [unfolded] at read
    obtain ⟨_, -, same⟩ := bind_eq_ok.1 read
    cases same

theorem startsWithSet_of_expansions (means : expansions name φ) : φ.StartsWithSet := by
  obtain ⟨text, found, first, more, rfl, parses⟩ := means
  obtain ⟨tail, eq, set⟩ := exists_bracket_of_expansion? found
  rw [eq] at parses
  have pieces {φs : List Phrase} {rest : List Char}
      (h : Parses (fun _ _ => False) .pieces ('[' :: tail) φs rest) :
      ∃ marks s quantifier others,
        φs = .piece marks (.atom (.set s)) quantifier :: others := by
    cases h with
    | nil stop => cases stop
    | cons _ piece _ =>
      cases piece with
      | piece inner =>
        obtain ⟨s, rfl⟩ := inner.exists_set rfl set
        exact ⟨_, s, _, _, rfl⟩
  cases parses with
  | last inner =>
    obtain ⟨marks, s, quantifier, others, rfl⟩ := pieces inner
    exact ⟨marks, s, quantifier, others, _, rfl⟩
  | more inner =>
    obtain ⟨marks, s, quantifier, others, rfl⟩ := pieces inner
    exact ⟨marks, s, quantifier, others, _, rfl⟩

/-- In parentheses the pattern of a macro is a group. -/
theorem Parses.enclosedText {text : String} (spells : φ.Spells (fun _ _ => False) text.toList)
    (rest : List Char) :
    Parses M .atom (Reading.enclosedText text ++ rest) [.group .plain φ] rest := by
  obtain ⟨first, more, rfl, parses⟩ := spells
  have ends : EndsBranch (')' :: rest) := by
    rintro _ ⟨⟩
    exact .inl rfl
  have inside := (parses.mono fun _ _ => False.elim).append (M := M) ends fun _ _ => by simp
  have split : Reading.enclosedText text ++ rest =
      '(' :: '?' :: ':' :: (text.toList ++ ')' :: rest) := by
    simp [Reading.enclosedText]
  rw [split]
  exact .group rfl inside

theorem macroText_injective : Function.Injective macroText := by
  intro name name' eq
  have eq := (List.cons.inj (List.cons.inj eq).2).2
  exact String.toList_inj.1 (List.append_cancel_right eq)

end

/-! ## Taking apart -/

namespace Parses

variable {level : Level} {cs cs' rest rest₁ rest₂ tail : List Char} {φ : Phrase} {φs : List Phrase}
  {a : Atom} {quantifier : Option Quantifier}

/-- Phrases that are read where macros are written out. -/
def Expanded (level : Level) (cs' : List Char) (φs : List Phrase) (rest : List Char) : Prop :=
  ∃ φs' rest', Parses expansions level cs' φs' rest' ∧ Expands rest rest' ∧
    Phrase.Encloses true φs φs'

theorem expanded_atom (group : cs.head? ≠ some '(') (read : readAtom cs = .ok (a, rest))
    (plain : ∀ name, a ≠ .macroName name) (h : Expands cs cs') :
    Expanded .atom cs' [.atom a] rest := by
  rcases readAtom_cases group read with ⟨used, run, rfl, rfl, stops⟩ | ⟨used, reads⟩
  · obtain ⟨rest', rfl, more⟩ := h.of_run run
    have read' := readAtom_run run (more.forall_head? (by decide) stops)
    have group' : (used ++ rest').head? ≠ some '(' := by
      cases run
      exact group
    exact ⟨_, rest', .atom group' read' plain, more, .atom _⟩
  · obtain ⟨⟨rfl, reads⟩, token⟩ := reads
    have noMacro (name text : String) (found : expansion? name = some text) :
        used ≠ macroText name := by
      rintro rfl
      cases (readAtom_macroText found rest).symm.trans read
      exact plain name rfl
    obtain ⟨rest', rfl, more⟩ := h.of_token token noMacro
    have follows : Follows rest rest' := by
      rcases more.head? with same | ⟨-, opens⟩
      · exact .inl same
      · right
        rw [opens]
        rintro _ ⟨⟩
        decide
    have group' : (used ++ rest').head? ≠ some '(' := by
      cases token <;> exact group
    exact ⟨_, rest', .atom group' (reads rest' fun _ => follows) plain, more, .atom a⟩

theorem expanded_expansion {name : String} (read : readAtom cs = .ok (.macroName name, rest))
    (means : expansions name φ) (h : Expands cs cs') : Expanded .atom cs' [φ] rest := by
  obtain rfl := eq_macroText_of_readAtom read
  have starts := startsWithSet_of_expansions means
  obtain ⟨text, found, spells⟩ := means
  obtain ⟨part', rest', rewrites, rfl, more⟩ := h.cases_lexeme (lexemes_macroText found rest)
  generalize eq : macroText name = part at rewrites
  cases rewrites with
  | keep =>
    subst eq
    exact ⟨[φ], rest', .expansion (by simp [macroText]) (readAtom_macroText found rest')
      ⟨text, found, spells⟩, more, .refl true φ⟩
  | expand found' =>
    obtain rfl := macroText_injective eq
    obtain rfl := Option.some.inj (found.symm.trans found')
    exact ⟨_, rest', .enclosedText spells rest', more, .enclose starts (.refl false φ)⟩

/-- The head of a group stays what it is. -/
theorem readGroupHead_of_expands {kind : GroupKind} (read : readGroupHead cs = .ok (kind, rest))
    (h : Expands cs cs') : ∃ rest', readGroupHead cs' = .ok (kind, rest') ∧ Expands rest rest' := by
  rcases readGroupHead_cases read with ⟨rfl, rfl, question⟩ | ⟨used, plain, rfl, reads⟩
  · exact ⟨cs', readGroupHead_of_ne (h.head?_ne (by decide) question), h⟩
  · have plain : Plain ('?' :: used) := plain.cons (by decide)
    obtain ⟨rest', rfl, more⟩ := h.of_plain plain
    exact ⟨rest', reads rest', more⟩

/-- So does a quantifier. -/
theorem readQuantifier_of_expands (read : readQuantifier cs = .ok (quantifier, rest))
    (h : Expands cs cs') :
    ∃ rest', readQuantifier cs' = .ok (quantifier, rest') ∧ Expands rest rest' := by
  rcases readQuantifier_cases read with
    ⟨rfl, rfl, none⟩ | ⟨c, used, mem, plain, rfl, question, reads⟩
  · exact ⟨cs', readQuantifier_of_none (h.forall_head? (by decide) none), h⟩
  · have plain : Plain (c :: used) := plain.cons (by fin_cases mem <;> decide)
    obtain ⟨rest', rfl, more⟩ := h.of_plain plain
    exact ⟨rest', reads rest' (more.head?_ne (by decide) question), more⟩

theorem expanded_group {kind : GroupKind} {inside : List Char} {first : Phrase}
    {more : List Phrase} (read : readGroupHead tail = .ok (kind, inside))
    (body : ∀ {inside'}, Expands inside inside' →
      Expanded .branches inside' (first :: more) (')' :: rest))
    (h : Expands ('(' :: tail) cs') :
    Expanded .atom cs' [.group kind (.choice first more)] rest := by
  obtain ⟨tail', rfl, behind⟩ := h.of_char (by decide) (by decide)
  obtain ⟨inside', read', within⟩ := readGroupHead_of_expands read behind
  obtain ⟨φs', left, parses, closes, encloses⟩ := body within
  obtain ⟨rest', rfl, after⟩ := closes.of_char (by decide) (by decide)
  obtain ⟨φ', others, rfl⟩ := encloses.exists_eq_cons
  exact ⟨_, rest', .group read' parses, after, .group kind (.choice encloses)⟩

theorem expanded_piece
    (body : ∀ {cs'}, Expands (skipMarker (atMarker cs) cs) cs' → Expanded .atom cs' [φ] rest₁)
    (read : readQuantifier (skipMarker (atQuantifierMarker rest₁) rest₁) = .ok (quantifier, rest₂))
    (h : Expands cs cs') :
    Expanded .piece cs'
      [.piece ⟨atMarker cs, atQuantifierMarker rest₁, atClosingMarker rest₂⟩ φ quantifier]
      (skipMarker (atClosingMarker rest₂) rest₂) := by
  obtain ⟨φs', rest₁', parses, more, encloses⟩ := body (h.skipMarker fun here => here)
  obtain ⟨φ', rfl⟩ := parses.exists_eq_singleton (.inl rfl)
  obtain ⟨rest₂', read', behind⟩ :=
    readQuantifier_of_expands read (more.skipMarker atMarker_of_atQuantifierMarker)
  rw [← h.atMarker] at parses
  rw [← more.atQuantifierMarker] at read'
  have piece := Parses.piece parses read' rfl
  rw [h.atMarker, more.atQuantifierMarker, behind.atClosingMarker] at piece
  exact ⟨_, _, piece, behind.skipMarker atMarker_of_atClosingMarker, .piece _ quantifier encloses⟩

/-- **Where macros are written out, groups take the place of their phrases**, and nothing else
changes. -/
theorem expands (parses : Parses expansions level cs φs rest) (h : Expands cs cs') :
    Expanded level cs' φs rest := by
  induction parses generalizing cs' with
  | atom group read plain => exact expanded_atom group read plain h
  | expansion _ read means => exact expanded_expansion read means h
  | group read _ ih => exact expanded_group read ih h
  | piece _ read eq ih =>
    subst eq
    exact expanded_piece ih read h
  | nil stop => exact ⟨[], cs', .nil (h.atBranchEnd.trans stop), h, .nil⟩
  | cons going _ _ ih ih' =>
    obtain ⟨φs', left, parses, more, encloses⟩ := ih h
    obtain ⟨φ', rfl⟩ := parses.exists_eq_singleton (.inr rfl)
    obtain ⟨ψs', rest', parses', behind, encloses'⟩ := ih' more
    exact ⟨_, rest', .cons (h.atBranchEnd.trans going) parses parses', behind,
      .cons encloses encloses'⟩
  | last _ bar ih =>
    obtain ⟨φs', rest', parses, more, encloses⟩ := ih h
    exact ⟨_, rest', .last parses (more.head?_ne (by decide) bar), more, .branch encloses⟩
  | more _ _ ih ih' =>
    obtain ⟨φs', left, parses, more, encloses⟩ := ih h
    obtain ⟨tail', rfl, behind⟩ := more.of_char (by decide) (by decide)
    obtain ⟨ψs', rest', parses', behind, encloses'⟩ := ih' behind
    exact ⟨_, rest', .more parses parses', behind, .cons (.branch encloses) encloses'⟩

end Parses

/-- **If macros are written out, a text is still a phrase**, the same but for parentheses. -/
theorem Phrase.Spells.expands {cs cs' : List Char} {φ : Phrase} (spells : φ.Spells expansions cs)
    (h : Expands cs cs') : ∃ φ' : Phrase, φ'.Spells expansions cs' ∧ Encloses true [φ] [φ'] := by
  obtain ⟨first, more, rfl, parses⟩ := spells
  obtain ⟨φs', rest', parses', behind, encloses⟩ := parses.expands h
  obtain ⟨φ', others, rfl⟩ := encloses.exists_eq_cons
  rw [behind.eq_nil] at parses'
  exact ⟨.choice φ' others, ⟨φ', others, rfl, parses'⟩, .choice encloses⟩

end PatternSampler
