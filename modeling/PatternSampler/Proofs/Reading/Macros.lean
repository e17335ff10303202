/-
# Macros that are written out

A macro may be written out: what it stands for takes its place, in parentheses that do not capture.
The reader comes to a macro only where a lexeme begins, so writing out macros means to put other
texts in the place of some of the lexemes.

* `WritesOut` : some macros that the reader comes to are written out.
* `Expands` : the same, lexeme by lexeme, with `WritesOut.expands`.
* `Expands.of_skips`, `Expands.head?` : what becomes of a text that has no macros.
-/
import PatternSampler.Proofs.Reading.Markers
import PatternSampler.Proofs.Reading.Position

namespace PatternSampler.Reading

/-! ## Writing out -/

/-- A macro as it stands in a text. -/
def macroText (name : String) : List Char :=
  '[' :: ':' :: (name.toList ++ [':', ']'])

/-- A text in parentheses that do not capture. -/
def enclosedText (text : String) : List Char :=
  '(' :: '?' :: ':' :: (text.toList ++ [')'])

/-- While a pattern is read, an atom is read where a macro stands in it; `behind` is the text behind
the macro. -/
def ReadsMacro (pattern name : String) (behind : List Char) : Prop :=
  ∃ d, Call.Within ⟨false, .atom, macroText name ++ behind, d⟩ (.whole pattern)

/-- The calls that are made in some number of steps. -/
def Call.deeper (C : Call) : ℕ → List Call
  | 0 => [C]
  | n + 1 => (C.deeper n).flatMap Call.calls

theorem Call.within_of_mem_deeper {C C' : Call} {n : ℕ} (mem : C' ∈ C.deeper n) : C'.Within C := by
  induction n generalizing C' with
  | zero =>
    rw [List.mem_singleton.1 mem]
    exact .refl C
  | succ n ih =>
    obtain ⟨caller, before, made⟩ := List.mem_flatMap.1 mem
    exact (within_of_mem made).trans (ih before)

/-- Whether an atom is read at a place can be found out by reading up to it. -/
theorem readsMacro_of_deeper {pattern name : String} {behind : List Char} (n : ℕ)
    (found : ((Call.whole pattern).deeper n).any (fun C =>
      !C.expanding && C.level matches .atom && C.text == macroText name ++ behind) = true) :
    ReadsMacro pattern name behind := by
  obtain ⟨⟨expanding, level, text, d⟩, mem, same⟩ := List.any_eq_true.1 found
  simp only [Bool.and_eq_true, Bool.not_eq_true', beq_iff_eq] at same
  obtain ⟨⟨rfl, atom⟩, rfl⟩ := same
  cases level with
  | atom => exact ⟨d, Call.within_of_mem_deeper mem⟩
  | piece | pieces | branches => cases atom

/-- Some of the macros in a part of a pattern, from some place to its end, are written out.  Which
of the macros that the reader comes to these are is left open. -/
inductive WritesOut (pattern : String) : List Char → List Char → Prop
  | nil : WritesOut pattern [] []
  | keep (c : Char) {cs cs' : List Char} :
      WritesOut pattern cs cs' → WritesOut pattern (c :: cs) (c :: cs')
  | expand {name text : String} {cs cs' : List Char} :
      ReadsMacro pattern name cs → expansion? name = some text → WritesOut pattern cs cs' →
      WritesOut pattern (macroText name ++ cs) (enclosedText text ++ cs')

/-- What stands in front of a part stays as it is. -/
theorem WritesOut.append {pattern : String} {cs cs' : List Char} (used : List Char)
    (out : WritesOut pattern cs cs') : WritesOut pattern (used ++ cs) (used ++ cs') := by
  induction used with
  | nil => exact out
  | cons c used ih => exact .keep c ih

/-- A lexeme stays what it is, or it is a macro and is written out. -/
inductive Rewrites : List Char → List Char → Prop
  | keep (part : List Char) : Rewrites part part
  | expand {name text : String} :
      expansion? name = some text → Rewrites (macroText name) (enclosedText text)

theorem Rewrites.eq_of_head? {part part' : List Char} (h : Rewrites part part')
    (other : part.head? ≠ some '[') : part' = part := by
  cases h with
  | keep => rfl
  | expand => exact absurd rfl other

/-- Some of the lexemes of a text that are macros are written out. -/
def Expands (cs cs' : List Char) : Prop :=
  ∃ parts', List.Forall₂ Rewrites (lexemes cs) parts' ∧ parts'.flatten = cs'

variable {pattern name text : String} {cs cs' rest rest' tail used : List Char} {c : Char}

/-! ## Lexemes -/

theorem setBody_prefix (cs : List Char) : setBody cs <+: cs := by
  fun_induction setBody cs with
  | case1 => exact List.prefix_rfl
  | case2 c cs ih => exact List.cons_prefix_cons.2 ⟨rfl, List.cons_prefix_cons.2 ⟨rfl, ih⟩⟩
  | case3 cs => exact List.cons_prefix_cons.2 ⟨rfl, List.nil_prefix⟩
  | case4 c cs _ _ ih => exact List.cons_prefix_cons.2 ⟨rfl, ih⟩

theorem setText_prefix (cs : List Char) : setText cs <+: cs := by
  unfold setText
  split
  · exact List.cons_prefix_cons.2 ⟨rfl, List.cons_prefix_cons.2 ⟨rfl, setBody_prefix _⟩⟩
  · exact List.cons_prefix_cons.2 ⟨rfl, setBody_prefix _⟩
  · exact setBody_prefix _

theorem numberTail_prefix (c : Char) (cs : List Char) : numberTail c cs <+: cs := by
  unfold numberTail
  split
  · exact (List.takeWhile_prefix _).trans (List.take_prefix 2 cs)
  · exact List.takeWhile_prefix _

/-- A lexeme is what a text begins with. -/
theorem lexeme_prefix (cs : List Char) : lexeme cs <+: cs := by
  unfold lexeme
  split
  · exact List.prefix_rfl
  · exact List.cons_prefix_cons.2 ⟨rfl, setText_prefix _⟩
  · refine List.cons_prefix_cons.2 ⟨rfl, List.cons_prefix_cons.2 ⟨rfl, ?_⟩⟩
    split
    · exact numberTail_prefix _ _
    · exact List.nil_prefix
  · exact List.cons_prefix_cons.2 ⟨rfl, List.nil_prefix⟩

theorem lexemes_nil : lexemes [] = [] := by
  rw [lexemes]

/-- A text that is not empty is its first lexeme and what stands behind it. -/
theorem exists_lexemes_cons (c : Char) (cs : List Char) : ∃ used rest, cs = used ++ rest ∧
    lexemes (c :: cs) = (c :: used) :: lexemes rest := by
  obtain ⟨used, eq⟩ := exists_lexeme_cons c cs
  obtain ⟨rest, split⟩ := lexeme_prefix (c :: cs)
  rw [eq, List.cons_append, List.cons_inj_right] at split
  subst split
  exact ⟨used, rest, rfl, lexemes_append eq⟩

/-- **A text is made up of its lexemes.** -/
theorem flatten_lexemes (cs : List Char) : (lexemes cs).flatten = cs := by
  induction length : cs.length using Nat.strong_induction_on generalizing cs with
  | _ n ih =>
    subst length
    cases cs with
    | nil =>
      rw [lexemes_nil]
      rfl
    | cons c cs =>
      obtain ⟨used, rest, rfl, eq⟩ := exists_lexemes_cons c cs
      have shorter : rest.length < (c :: (used ++ rest)).length := by
        rw [List.length_cons, List.length_append]
        omega
      rw [eq, List.flatten_cons, ih _ shorter rest rfl]
      rfl

theorem length_le_of_lexemes (h : lexemes rest <:+ lexemes cs) : rest.length ≤ cs.length := by
  obtain ⟨parts, eq⟩ := h
  rw [← flatten_lexemes cs, ← eq, List.flatten_append, flatten_lexemes, List.length_append]
  exact Nat.le_add_left _ _

/-- **No lexeme of a text begins inside of another one.** -/
theorem length_le_of_inside {whole inside part : List Char}
    (outer : lexemes cs <:+ lexemes whole) (first : lexemes cs = part :: lexemes rest)
    (inner : lexemes inside <:+ lexemes whole) (lt : inside.length < cs.length) :
    inside.length ≤ rest.length := by
  rcases List.suffix_or_suffix_of_suffix inner outer with h | h
  · rw [first, List.suffix_cons_iff] at h
    rcases h with same | h
    · -- the same lexemes make up the same text
      have text : inside = cs := by
        rw [← flatten_lexemes inside, ← flatten_lexemes cs, same, first]
      exact absurd lt (text ▸ lt_irrefl _)
    · exact length_le_of_lexemes h
  · exact absurd lt (not_lt.2 (length_le_of_lexemes h))

/-! ## Calls and lexemes -/

theorem suffix_of_takes {count : ℕ} (h : Takes count cs rest) : lexemes rest <:+ lexemes cs := by
  obtain ⟨parts, eq, -⟩ := h
  exact ⟨parts, eq.symm⟩

namespace Call

variable {B C C' : Call} {made : List Call} {ids : List ℕ} {d : Draft}

/-- What a call leaves begins with a lexeme of its text. -/
theorem Ends.lexemes (ends : C.Ends ids rest d) (off : C.expanding = false) :
    lexemes rest <:+ lexemes C.text := by
  have known : C.known = expandMacro := if_neg (Bool.eq_false_iff.1 off)
  have runs : Runs expandMacro C.level C.text ids rest C.draft d := known ▸ ends
  obtain ⟨φs, parses, -⟩ := splits stands_expandMacro _ _ _ _ _ _ runs
  exact suffix_of_takes (parses.takes fun _ _ => expansions_unmarked)

/-- A call that is made in the text of a pattern begins with a lexeme. -/
theorem Course.lexemes (course : C.Course made ids rest d) (mem : C' ∈ made)
    (off : C.expanding = false) (off' : C'.expanding = false) :
    lexemes C'.text <:+ lexemes C.text := by
  have char {c : Char} (backslash : c ≠ '\\') (bracket : c ≠ '[') (tail : List Char) :
      Takes 0 (c :: tail) tail := .char backslash bracket tail
  cases course with
  | atom => cases mem
  | expansion =>
    rw [List.mem_singleton.1 mem] at off'
    cases off'
  | @group _ tail _ _ _ _ _ _ _ _ _ _ _ _ _ head =>
    rw [List.mem_singleton.1 mem]
    exact suffix_of_takes ((char (by decide) (by decide) tail).trans (.readGroupHead head))
  | piece =>
    rw [List.mem_singleton.1 mem]
    exact suffix_of_takes (.skipMarker fun h => h)
  | stop => cases mem
  | next _ first =>
    rcases List.mem_cons.1 mem with rfl | mem
    · exact List.suffix_rfl
    · rw [List.mem_singleton.1 mem]
      exact first.lexemes off
  | last => rw [List.mem_singleton.1 mem]
  | @more _ _ tail _ _ _ _ _ _ _ _ first =>
    rcases List.mem_cons.1 mem with rfl | mem
    · exact List.suffix_rfl
    · rw [List.mem_singleton.1 mem]
      exact (suffix_of_takes (char (by decide) (by decide) tail)).trans (first.lexemes off)

/-- **Calls are made where lexemes begin.** -/
theorem Within.lexemes (within : B.Within C) (ends : C.Ends ids rest d)
    (off : B.expanding = false) : lexemes B.text <:+ lexemes C.text := by
  induction within with
  | refl => exact List.suffix_rfl
  | @tail middle B before mem ih =>
    obtain ⟨_, _, _, ends', -, -⟩ := Within.ends before ends
    have between : middle.expanding = false := by
      rcases ends'.course.text mem with ⟨same, -⟩ | ⟨off', -⟩
      · exact same.symm.trans off
      · exact off'
    exact (ends'.course.lexemes mem between off).trans (ih between)

end Call

/-! ## Macros as lexemes -/

/-- The names of macros consist of letters. -/
theorem isAlpha_of_expansion? (found : expansion? name = some text) :
    ∀ c ∈ name.toList, c.isAlpha = true := by
  have all : (macros.all fun entry => entry.1.toList.all Char.isAlpha) = true := by decide +kernel
  exact List.all_eq_true.1 (List.all_eq_true.1 all _ (mem_macros_of_expansion? found))

/-- A macro is read as one. -/
theorem readAtom_macroText (found : expansion? name = some text) (rest : List Char) :
    readAtom (macroText name ++ rest) = .ok (.macroName name, rest) := by
  have letters := isAlpha_of_expansion? found
  have stops : Stops Char.isAlpha (':' :: ']' :: rest) := by
    rintro _ ⟨⟩
    decide
  have read : readMacroName (macroText name ++ rest) (name.toList ++ ':' :: ']' :: rest) =
      .ok (name, rest) := by
    rw [readMacroName_eq_ok_iff, takeWhile_append letters stops, dropWhile_append letters stops]
    exact ⟨String.ofList_toList.symm, rfl⟩
  have split : macroText name ++ rest = '[' :: ':' :: (name.toList ++ ':' :: ']' :: rest) := by
    simp [macroText]
  rw [split] at read ⊢
  exact bind_eq_ok.2 ⟨_, read, rfl⟩

/-- What is read as a macro is one. -/
theorem eq_macroText_of_readAtom (read : readAtom cs = .ok (.macroName name, rest)) :
    cs = macroText name ++ rest := by
  unfold readAtom at read
  split at read
  · cases read
  · obtain ⟨⟨name, left⟩, read, same⟩ := bind_eq_ok.1 read
    cases same
    obtain ⟨rfl, eq⟩ := readMacroName_eq_ok_iff.1 read
    rw [macroText, String.toList_ofList]
    simp [← eq]
  · obtain ⟨_, _, same⟩ := bind_eq_ok.1 read
    cases same
  · obtain ⟨⟨escape, left⟩, _, same⟩ := bind_eq_ok.1 read
    cases escape <;> cases same
  · split at read
    · cases read
    split at read
    · cases read
    split at read <;> cases read

/-- A macro is a lexeme. -/
theorem lexemes_macroText (found : expansion? name = some text) (rest : List Char) :
    lexemes (macroText name ++ rest) = macroText name :: lexemes rest := by
  have letters : Plain name.toList := by
    intro c mem
    have letter := isAlpha_of_expansion? found c mem
    refine ⟨?_, ?_, ?_⟩ <;> rintro rfl <;> exact absurd letter (by decide)
  have colon : Plain [':'] := .cons (by decide) .nil
  have inside : Enclosed (':' :: (name.toList ++ [':'])) :=
    ((letters.append colon).cons (by decide)).enclosed
  have set : IsSet (':' :: (name.toList ++ [':', ']'])) := by
    simpa using IsSet.intro (.inl rfl) (.inl ⟨rfl, List.cons_ne_nil _ _⟩) (by simp) inside
  exact lexemes_append (congrArg ('[' :: ·) (setText_append set rest))

/-! ## Writing out lexeme by lexeme -/

/-- Writing out goes on behind the first character, or the text begins with a macro. -/
theorem WritesOut.cases_cons (h : WritesOut pattern (c :: cs) cs') :
    (∃ tail', cs' = c :: tail' ∧ WritesOut pattern cs tail') ∨
      ∃ name text behind behind', c :: cs = macroText name ++ behind ∧
        cs' = enclosedText text ++ behind' ∧ ReadsMacro pattern name behind ∧
        expansion? name = some text ∧ WritesOut pattern behind behind' := by
  generalize eq : c :: cs = whole at h
  cases h with
  | nil => cases eq
  | keep _ more =>
    cases eq
    exact .inl ⟨_, rfl, more⟩
  | expand reads found more => exact .inr ⟨_, _, _, _, rfl, rfl, reads, found, more⟩

/-- Inside of a lexeme no macro is written out. -/
theorem WritesOut.inside {ids : List ℕ} {d : Draft} {part : List Char}
    (ends : (Call.whole pattern).Ends ids [] d) (outer : lexemes cs <:+ lexemes pattern.toList)
    (first : lexemes cs = part :: lexemes rest) (lt : (used ++ rest).length < cs.length)
    (h : WritesOut pattern (used ++ rest) cs') :
    ∃ rest', cs' = used ++ rest' ∧ WritesOut pattern rest rest' := by
  induction used generalizing cs' with
  | nil => exact ⟨cs', rfl, h⟩
  | cons c used ih =>
    rw [List.cons_append] at lt h
    rcases h.cases_cons with ⟨tail', rfl, more⟩ | ⟨name, _, behind, _, eq, -, ⟨_, within⟩, -⟩
    · obtain ⟨rest', rfl, behind⟩ := ih ((Nat.lt_succ_self _).trans lt) more
      exact ⟨rest', rfl, behind⟩
    · -- the reader would begin where no lexeme begins
      have inner : lexemes (macroText name ++ behind) <:+ lexemes pattern.toList :=
        within.lexemes ends rfl
      rw [← eq] at inner
      have le := length_le_of_inside outer first inner lt
      rw [List.length_cons, List.length_append] at le
      omega

theorem expands_nil : Expands [] [] :=
  ⟨[], by rw [lexemes_nil]; exact .nil, rfl⟩

theorem Expands.cons {part part' : List Char} (first : lexemes cs = part :: lexemes rest)
    (rewrites : Rewrites part part') (h : Expands rest rest') : Expands cs (part' ++ rest') := by
  obtain ⟨parts', all, rfl⟩ := h
  exact ⟨part' :: parts', first ▸ .cons rewrites all, rfl⟩

/-- **Macros are written out lexeme by lexeme.** -/
theorem WritesOut.expands {ids : List ℕ} {d : Draft} (ends : (Call.whole pattern).Ends ids [] d)
    (outer : lexemes cs <:+ lexemes pattern.toList) (h : WritesOut pattern cs cs') :
    Expands cs cs' := by
  induction length : cs.length using Nat.strong_induction_on generalizing cs cs' with
  | _ n ih =>
    subst length
    cases cs with
    | nil =>
      generalize eq : [] = whole at h
      cases h with
      | nil => exact expands_nil
      | keep => cases eq
      | expand => cases eq
    | cons c cs =>
      rcases h.cases_cons with ⟨tail', rfl, more⟩ | ⟨name, text, rest, rest', eq, rfl, -, found, more⟩
      · obtain ⟨used, rest, rfl, first⟩ := exists_lexemes_cons c cs
        obtain ⟨rest', rfl, behind⟩ := more.inside ends outer first (Nat.lt_succ_self _)
        have shorter : rest.length < (c :: (used ++ rest)).length := by
          rw [List.length_cons, List.length_append]
          omega
        have begins := (first ▸ List.suffix_cons _ _).trans outer
        exact .cons first (.keep _) (ih _ shorter begins behind rfl)
      · have first := lexemes_macroText found rest
        have shorter : rest.length < (macroText name ++ rest).length := by
          rw [macroText, List.cons_append, List.length_cons, List.cons_append, List.length_cons,
            List.length_append]
          omega
        rw [eq] at outer ih ⊢
        have begins := (first ▸ List.suffix_cons _ _).trans outer
        exact .cons first (.expand found) (ih _ shorter begins more rfl)

namespace Expands

/-- The first lexeme of a text stays, or it is a macro and is written out. -/
theorem cases_lexeme {part : List Char} (first : lexemes cs = part :: lexemes rest)
    (h : Expands cs cs') :
    ∃ part' rest', Rewrites part part' ∧ cs' = part' ++ rest' ∧ Expands rest rest' := by
  obtain ⟨parts', all, rfl⟩ := h
  rw [first] at all
  cases all with
  | cons rewrites more => exact ⟨_, _, rewrites, rfl, _, more, rfl⟩

/-- Lexemes that are no macros stay what they are. -/
theorem kept {parts more parts' : List (List Char)} (plain : ∀ name, macroText name ∉ parts)
    (all : List.Forall₂ Rewrites (parts ++ more) parts') :
    ∃ more', parts' = parts ++ more' ∧ List.Forall₂ Rewrites more more' := by
  induction parts generalizing parts' with
  | nil => exact ⟨parts', rfl, all⟩
  | cons part parts ih =>
    cases all with
    | cons rewrites all =>
      obtain ⟨more', rfl, others⟩ := ih (fun name mem => plain name (List.mem_cons_of_mem _ mem)) all
      cases rewrites with
      | keep => exact ⟨more', rfl, others⟩
      | expand => exact absurd List.mem_cons_self (plain _)

/-- What does not have both brackets of a macro stays where it is. -/
theorem of_skips (skips : Skips used rest) (brackets : '[' ∈ used → ']' ∉ used)
    (h : Expands (used ++ rest) cs') : ∃ rest', cs' = used ++ rest' ∧ Expands rest rest' := by
  obtain ⟨parts, rfl, -, eq⟩ := skips
  obtain ⟨parts', all, rfl⟩ := h
  rw [eq] at all
  have plain (name : String) : macroText name ∉ parts := by
    intro mem
    have inside (c : Char) (here : c ∈ macroText name) : c ∈ parts.flatten :=
      List.mem_flatten.2 ⟨_, mem, here⟩
    exact brackets (inside '[' (by simp [macroText])) (inside ']' (by simp [macroText]))
  obtain ⟨more', rfl, others⟩ := kept plain all
  exact ⟨more'.flatten, List.flatten_append, more', others, rfl⟩

theorem of_plain (plain : Plain used) (h : Expands (used ++ rest) cs') :
    ∃ rest', cs' = used ++ rest' ∧ Expands rest rest' :=
  h.of_skips plain.skips fun mem => absurd rfl (plain _ mem).2.1

/-- A character that is neither a backslash nor an opening bracket stays where it is. -/
theorem of_char (backslash : c ≠ '\\') (bracket : c ≠ '[') (h : Expands (c :: cs) cs') :
    ∃ tail', cs' = c :: tail' ∧ Expands cs tail' := by
  refine of_skips (.char backslash bracket cs) (fun mem => ?_) h
  exact absurd (List.mem_singleton.1 mem).symm bracket

theorem of_run (run : IsRun used) (h : Expands (used ++ rest) cs') :
    ∃ rest', cs' = used ++ rest' ∧ Expands rest rest' := by
  refine h.of_skips run.skips fun mem => ?_
  obtain ⟨-, special, plain⟩ := run
  rcases List.mem_cons.1 mem with rfl | mem
  · exact absurd (by decide) special
  · exact absurd (plain _ mem) (by decide)

/-- An escape or a single character stays where it is, and so does a set. -/
theorem of_token (token : IsToken rest used)
    (noMacro : ∀ name text, expansion? name = some text → used ≠ macroText name)
    (h : Expands (used ++ rest) cs') : ∃ rest', cs' = used ++ rest' ∧ Expands rest rest' := by
  have lexeme (first : lexemes (used ++ rest) = used :: lexemes rest) :
      ∃ rest', cs' = used ++ rest' ∧ Expands rest rest' := by
    obtain ⟨part', rest', rewrites, rfl, more⟩ := h.cases_lexeme first
    generalize eq : used = part at rewrites
    cases rewrites with
    | keep => exact ⟨rest', eq ▸ rfl, more⟩
    | expand found => exact absurd eq (noMacro _ _ found)
  cases token with
  | single mem =>
    refine h.of_skips (IsToken.single mem).skips fun bracket => ?_
    rw [← List.mem_singleton.1 bracket] at mem
    exact absurd mem (by decide)
  | @escape c used digit letter plain =>
    refine h.of_skips (IsToken.escape digit letter plain).skips fun opens closes => ?_
    -- only what stands behind the backslash may be a bracket
    have here {b : Char} (bracket : ¬ (b ≠ '\\' ∧ b ≠ '[' ∧ b ≠ ']')) (backslash : b ≠ '\\')
        (mem : b ∈ '\\' :: c :: used) : b = c := by
      rcases List.mem_cons.1 mem with same | mem
      · exact absurd same backslash
      rcases List.mem_cons.1 mem with same | mem
      · exact same
      · exact absurd (plain b mem) bracket
    have same := (here (by decide) (by decide) opens).trans (here (by decide) (by decide) closes).symm
    exact absurd same (by decide)
  | @number c used digit tail =>
    exact lexeme (lexemes_append (by simp [Reading.lexeme, digit, tail]))
  | @set used set => exact lexeme (lexemes_append (congrArg ('[' :: ·) (setText_append set rest)))

/-- A lexeme that is not in brackets stays where it is. -/
theorem of_lexeme {part : List Char} (first : lexemes cs = part :: lexemes rest)
    (other : part.head? ≠ some '[') (h : Expands cs cs') :
    ∃ rest', cs' = part ++ rest' ∧ Expands rest rest' := by
  obtain ⟨part', rest', rewrites, rfl, more⟩ := h.cases_lexeme first
  exact ⟨rest', by rw [rewrites.eq_of_head? other], more⟩

/-- A marker stays where it is. -/
theorem of_marker (h : Expands ('\\' :: 'i' :: cs) cs') :
    ∃ tail', cs' = '\\' :: 'i' :: tail' ∧ Expands cs tail' :=
  h.of_lexeme (lexemes_marker cs) (by simp [marker])

/-- A backslash keeps the character that it escapes. -/
theorem of_backslash (h : Expands ('\\' :: c :: cs) cs') : ∃ tail', cs' = '\\' :: c :: tail' := by
  obtain ⟨used, rest, -, first⟩ := exists_lexemes_cons '\\' (c :: cs)
  have begins : lexeme ('\\' :: c :: cs) = '\\' :: used := by
    rw [lexemes] at first
    exact (List.cons.inj first).1
  obtain ⟨rest', rfl, -⟩ := h.of_lexeme first (by simp)
  rw [← begins]
  exact ⟨_, rfl⟩

/-! ### What a text begins with -/

theorem eq_nil (h : Expands [] cs') : cs' = [] := by
  obtain ⟨parts', all, rfl⟩ := h
  rw [lexemes_nil] at all
  cases all
  rfl

/-- **A text begins as before**, or it began with a macro and begins with a group. -/
theorem head? (h : Expands cs cs') :
    cs'.head? = cs.head? ∨ cs.head? = some '[' ∧ cs'.head? = some '(' := by
  cases cs with
  | nil => exact .inl (congrArg List.head? h.eq_nil)
  | cons c cs =>
    obtain ⟨used, rest, rfl, first⟩ := exists_lexemes_cons c cs
    by_cases bracket : c = '['
    · obtain ⟨part', rest', rewrites, rfl, -⟩ := h.cases_lexeme first
      generalize eq : c :: used = part at rewrites
      cases rewrites with
      | keep =>
        rw [← eq]
        exact .inl rfl
      | expand => exact .inr ⟨congrArg some bracket, rfl⟩
    · obtain ⟨rest', rfl, -⟩ := h.of_lexeme first fun head => bracket (Option.some.inj head)
      exact .inl rfl

/-- What a reader finds out from the first character does not change. -/
theorem of_head? {α : Type} (h : Expands cs cs') {f : Option Char → α}
    (same : f (some '(') = f (some '[')) : f cs'.head? = f cs.head? := by
  rcases h.head? with eq | ⟨was, is⟩
  · rw [eq]
  · rw [was, is, same]

theorem forall_head? (h : Expands cs cs') {motive : Char → Prop} (group : motive '(')
    (here : ∀ c, cs.head? = some c → motive c) (c : Char) (head : cs'.head? = some c) :
    motive c := by
  rcases h.head? with same | ⟨-, opens⟩
  · exact here c (same.symm.trans head)
  · obtain rfl := Option.some.inj (opens.symm.trans head)
    exact group

theorem head?_ne (h : Expands cs cs') (group : c ≠ '(') (here : cs.head? ≠ some c) :
    cs'.head? ≠ some c := by
  intro head
  rcases h.head? with same | ⟨-, opens⟩
  · exact here (same.symm.trans head)
  · exact group (Option.some.inj (head.symm.trans opens))

theorem atBranchEnd (h : Expands cs cs') : Reading.atBranchEnd cs' = Reading.atBranchEnd cs := by
  have first (cs : List Char) : Reading.atBranchEnd cs = cs.head?.all fun c => c == ')' || c == '|' := by
    cases cs <;> rfl
  rw [first, first]
  exact h.of_head? rfl

theorem atMarker (h : Expands cs cs') : Reading.atMarker cs' = Reading.atMarker cs := by
  rw [Bool.eq_iff_iff, atMarker_iff, atMarker_iff]
  constructor
  · rintro ⟨tail', rfl⟩
    have head : cs.head? = some '\\' := by
      rcases h.head? with same | ⟨-, opens⟩
      · exact same.symm
      · cases opens
    obtain ⟨tail, rfl⟩ := Call.exists_cons_of_head? head
    cases tail with
    | nil =>
      -- a backslash at the end is a lexeme of its own
      have alone : lexemes ['\\'] = ['\\'] :: lexemes [] := by simp [lexemes, lexeme]
      obtain ⟨rest', eq, more⟩ := h.of_lexeme alone (by simp)
      rw [more.eq_nil] at eq
      cases eq
    | cons c tail =>
      obtain ⟨_, eq⟩ := h.of_backslash
      cases eq
      exact ⟨tail, rfl⟩
  · rintro ⟨tail, rfl⟩
    obtain ⟨tail', rfl, -⟩ := h.of_marker
    exact ⟨tail', rfl⟩

/-- What a reader finds out from a marker and the character behind it does not change. -/
theorem of_atMarker {f : List Char → Bool} (h : Expands cs cs')
    (only : ∀ cs, f cs = true → Reading.atMarker cs = true)
    (behind : ∀ {tail tail'}, Expands tail tail' →
      f ('\\' :: 'i' :: tail') = f ('\\' :: 'i' :: tail)) : f cs' = f cs := by
  by_cases marker : Reading.atMarker cs = true
  · obtain ⟨tail, rfl⟩ := atMarker_iff.1 marker
    obtain ⟨tail', rfl, more⟩ := h.of_marker
    exact behind more
  · have none : f cs = false := Bool.eq_false_iff.2 fun found => marker (only cs found)
    rw [none, Bool.eq_false_iff]
    exact fun found => marker (h.atMarker ▸ only cs' found)

theorem atQuantifierMarker (h : Expands cs cs') :
    Reading.atQuantifierMarker cs' = Reading.atQuantifierMarker cs := by
  refine h.of_atMarker (fun _ => Parses.atMarker_of_atQuantifierMarker) fun {tail tail'} more => ?_
  have first (cs : List Char) : Reading.atQuantifierMarker ('\\' :: 'i' :: cs) =
      cs.head?.any fun c => c ∈ ['*', '+', '?', '\x7b'] := by
    cases cs <;> rfl
  rw [first, first]
  exact more.of_head? rfl

theorem atClosingMarker (h : Expands cs cs') :
    Reading.atClosingMarker cs' = Reading.atClosingMarker cs := by
  refine h.of_atMarker (fun _ => Parses.atMarker_of_atClosingMarker) fun more => ?_
  exact more.of_head? (f := fun head => head.all fun c => c ∈ ['|', ')']) rfl

theorem skipMarker {present : Bool} (here : present = true → Reading.atMarker cs = true)
    (h : Expands cs cs') :
    Expands (PatternSampler.skipMarker present cs) (PatternSampler.skipMarker present cs') := by
  cases present with
  | false => exact h
  | true =>
    obtain ⟨rest, rfl⟩ := atMarker_iff.1 (here rfl)
    obtain ⟨rest', rfl, more⟩ := h.of_marker
    exact more

end Expands

end PatternSampler.Reading
