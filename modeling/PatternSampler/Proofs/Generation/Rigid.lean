/-
# Patterns of fixed width

Without alternatives and backreferences, and with every repetition carried out a fixed number of
times, all words of a pattern have the same width, and each character stands at places that no other
reading of the word reaches.  A character that its set rejects, or that differs from the text at its
place, therefore spoils the whole word, and so does a repetition that changes the width.

* `Expr.width` : the width of an expression, `Expr.Rigid` says that it is fixed.
* `Expr.not_mem_language_of_mem_mutants` : a broken set or text spoils a word.
* `Expr.length_ne_width_of_mem_mutants` : a broken repetition changes the width.
* `Pattern.generate_ne_stillMatches` : what is generated for such a pattern is never refused.
-/
import PatternSampler.Proofs.Generation.Guarantee
import PatternSampler.Proofs.Generation.Mutants
import PatternSampler.Proofs.Invalidation.Selection

namespace PatternSampler

/-- Bounds that fix a number of times allow no other. -/
theorem Bounds.Allows.eq_least {b : Bounds} {count : ℕ} (h : b.Allows count)
    (most : b.most = some b.least) : count = b.least :=
  le_antisymm ((h.2 _ most).trans (max_self _).le) h.1

namespace Expr

/-! ## Width -/

/-- The width of a part that is repeated `count` times and has itself the width `own`.  Of a text
only the last character is repeated. -/
def repeatedWidth (count own : ℕ) : Expr → ℕ
  | text _ (_ :: others) => others.length + count
  | _ => count * own

mutual

/-- The number of characters of each word of an expression, if repetitions are carried out their
least number of times.  Alternatives and backreferences, which have no width of their own, count for
nothing. -/
def width : Expr → ℕ
  | text _ chars => chars.length
  | set _ _ => 1
  | concat _ parts => widthAll parts
  | repetition _ body bounds _ => body.repeatedWidth bounds.least body.width
  | group _ body _ => body.width
  | alternation _ _ | backref _ _ => 0

/-- The number of characters of several expressions one after the other. -/
def widthAll : List Expr → ℕ
  | [] => 0
  | e :: es => e.width + widthAll es

end

/-- There are no alternatives and no backreferences, and every repetition carries a part that is not
empty out a fixed number of times, at least once. -/
inductive Rigid : Expr → Prop
  | text {id : ℕ} {chars : List Char} : Rigid (text id chars)
  | set {id : ℕ} {s : CharSet} : Rigid (set id s)
  | concat {id : ℕ} {parts : List Expr} : (∀ e ∈ parts, Rigid e) → Rigid (concat id parts)
  | repetition {id : ℕ} {body : Expr} {bounds : Bounds} {same : Bool} :
      1 ≤ bounds.least → bounds.most = some bounds.least → 0 < body.width → Rigid body →
      Rigid (repetition id body bounds same)
  | group {id : ℕ} {body : Expr} {capture : Option ℕ} : Rigid body → Rigid (group id body capture)

/-! ## Parts that are repeated as a whole -/

/-- A part that is repeated as a whole: nothing of it stands in front of its occurrences. -/
structure Whole (body : Expr) : Prop where
  repeated : ∀ same count own, body.repeated same count own = several own count same
  width : ∀ count n, body.repeatedWidth count n = count * n

/-- Everything but a text that is not empty is repeated as a whole. -/
theorem whole_or_text (body : Expr) :
    body.Whole ∨ ∃ id first others, body = text id (first :: others) := by
  rcases body with ⟨id, _ | ⟨first, others⟩⟩ | _ | _ | _ | _ | _ | _
  · exact .inl ⟨fun _ _ _ => rfl, fun _ _ => rfl⟩
  · exact .inr ⟨id, first, others, rfl⟩
  all_goals exact .inl ⟨fun _ _ _ => rfl, fun _ _ => rfl⟩

/-- Of a text only the last character is repeated, whatever is generated for it. -/
theorem length_of_mem_repeated_text {own : Language Char} {id : ℕ} {first : Char}
    {others : List Char} (keeps : KeepsLength own (text id (first :: others))) {same : Bool}
    {count : ℕ} {w : List Char} (mem : w ∈ (text id (first :: others)).repeated same count own) :
    w.length = others.length + count := by
  obtain ⟨u, last, hu, rfl⟩ := mem
  have length := keeps id (first :: others) rfl _ hu
  rw [List.length_append, List.length_singleton, List.length_cons] at length
  rw [List.length_append, List.length_replicate, Nat.add_right_cancel length]

theorem repeatedWidth_le (body : Expr) (n : ℕ) {count count' : ℕ} (le : count ≤ count') :
    body.repeatedWidth count n ≤ body.repeatedWidth count' n := by
  rcases body.whole_or_text with whole | ⟨id, first, others, rfl⟩
  · rw [whole.width, whole.width]
    exact Nat.mul_le_mul_right n le
  · exact Nat.add_le_add_left le others.length

/-- A part that is not empty gets wider with each time that it is repeated. -/
theorem repeatedWidth_lt (body : Expr) {n count count' : ℕ} (pos : 0 < n) (lt : count < count') :
    body.repeatedWidth count n < body.repeatedWidth count' n := by
  rcases body.whole_or_text with whole | ⟨id, first, others, rfl⟩
  · rw [whole.width, whole.width]
    exact Nat.mul_lt_mul_of_pos_right lt pos
  · exact Nat.add_lt_add_left lt others.length

theorem repeatedWidth_ne {body : Expr} (pos : 0 < body.width) {count count' : ℕ}
    (ne : count ≠ count') :
    body.repeatedWidth count body.width ≠ body.repeatedWidth count' body.width := by
  rcases Nat.lt_or_gt_of_ne ne with lt | gt
  · exact (repeatedWidth_lt body pos lt).ne
  · exact (repeatedWidth_lt body pos gt).ne'

/-! ## Words of one length -/

section Lengths

variable {own own' : Language Char} {n count : ℕ} {w : List Char}

theorem length_of_mem_pow (each : ∀ v ∈ own, v.length = n) (mem : w ∈ own ^ count) :
    w.length = count * n := by
  induction count generalizing w with
  | zero =>
    rw [pow_zero, Language.mem_one] at mem
    rw [mem, Nat.zero_mul]
    rfl
  | succ count ih =>
    rw [pow_succ', Language.mem_mul] at mem
    obtain ⟨first, hfirst, others, hothers, rfl⟩ := mem
    rw [List.length_append, each first hfirst, ih hothers, Nat.succ_mul, Nat.add_comm]

theorem length_of_mem_several (each : ∀ v ∈ own, v.length = n) {same : Bool}
    (mem : w ∈ several own count same) : w.length = count * n := by
  cases same with
  | false => exact length_of_mem_pow each mem
  | true =>
    rcases mem with ⟨rfl, rfl⟩ | ⟨v, hv, rfl⟩
    · rw [Nat.zero_mul]
      rfl
    · simp [each v hv]

/-- What is made of several words begins with one of them. -/
theorem exists_prefix_of_mem_several (pos : 0 < count) {same : Bool}
    (mem : w ∈ several own count same) : ∃ v ∈ own, v <+: w := by
  obtain ⟨fewer, rfl⟩ := Nat.exists_eq_add_of_lt pos
  rw [Nat.zero_add] at mem
  cases same with
  | false =>
    have mem : w ∈ own ^ (fewer + 1) := mem
    rw [pow_succ', Language.mem_mul] at mem
    obtain ⟨first, hfirst, others, -, rfl⟩ := mem
    exact ⟨first, hfirst, List.prefix_append _ _⟩
  | true =>
    rcases mem with ⟨zero, -⟩ | ⟨v, hv, rfl⟩
    · cases zero
    · rw [List.replicate_succ, List.flatten_cons]
      exact ⟨v, hv, List.prefix_append _ _⟩

/-- The words of a repeated part all have the same width if those of the part have. -/
theorem length_of_mem_repeated {body : Expr} (each : ∀ v ∈ own, v.length = body.width)
    {same : Bool} (mem : w ∈ body.repeated same count own) :
    w.length = body.repeatedWidth count body.width := by
  rcases body.whole_or_text with whole | ⟨id, first, others, rfl⟩
  · rw [whole.repeated] at mem
    rw [whole.width]
    exact length_of_mem_several each mem
  · refine length_of_mem_repeated_text ?_ mem
    rintro _ _ ⟨⟩ v hv
    rw [each v hv, width]

/-- **Of two sets of words of one length that have nothing in common**, what is repeated of the one
is not what is repeated of the other. -/
theorem not_mem_repeated {body : Expr} (each : ∀ v ∈ own, v.length = body.width)
    (each' : ∀ v ∈ own', v.length = body.width) (apart : ∀ v ∈ own, v ∉ own') (pos : 0 < count)
    {same same' : Bool} (mem : w ∈ body.repeated same count own) :
    w ∉ body.repeated same' count own' := by
  intro mem'
  rcases body.whole_or_text with whole | ⟨id, first, others, rfl⟩
  · rw [whole.repeated] at mem mem'
    obtain ⟨v, hv, pre⟩ := exists_prefix_of_mem_several pos mem
    obtain ⟨v', hv', pre'⟩ := exists_prefix_of_mem_several pos mem'
    have length : v.length = v'.length := (each v hv).trans (each' v' hv').symm
    obtain rfl := (List.prefix_of_prefix_length_le pre pre' length.le).eq_of_length length
    exact apart v hv hv'
  · obtain ⟨u, v, hu, rfl⟩ := mem
    obtain ⟨u', v', hu', eq⟩ := mem'
    have length : u.length = u'.length := by
      have lengths := (each _ hu).trans (each' _ hu').symm
      rw [List.length_append, List.length_append] at lengths
      exact Nat.add_right_cancel lengths
    obtain ⟨rfl, last⟩ := List.append_inj eq length
    obtain rfl : v = v' := (List.replicate_inj.1 last).2.resolve_left pos.ne'
    exact apart _ hu hu'

end Lengths

/-! ## Words of a rigid expression -/

/-- The words of a repeated part are made of words of the part, as many as the bounds allow. -/
theorem mem_repeatedWords {body : Expr} {bounds : Bounds} {w : List Char} :
    w ∈ body.repeatedWords bounds body.language ↔
      ∃ count, bounds.Allows count ∧ w ∈ body.repeated false count body.language := by
  rcases body with ⟨tid, _ | ⟨first, others⟩⟩ | _ | _ | _ | _ | _ | _
  · exact Iff.rfl
  · have split : first :: others = (first :: others).dropLast ++
        [(first :: others).getLast (List.cons_ne_nil first others)] :=
      (List.dropLast_append_getLast (List.cons_ne_nil first others)).symm
    refine exists_congr fun count => and_congr_right fun _ => ?_
    rw [language]
    constructor
    · rintro rfl
      exact ⟨_, _, split.symm, rfl⟩
    · rintro ⟨u, v, eq, rfl⟩
      have eq : u ++ [v] = first :: others := eq
      rw [split] at eq
      obtain ⟨rfl, last⟩ := List.append_inj' eq rfl
      rw [List.singleton_inj.1 last]
  all_goals exact Iff.rfl

/-- The words of a repetition are those of its body, repeated as often as the bounds allow. -/
theorem mem_language_repetition_iff_repeated {id : ℕ} {body : Expr} {bounds : Bounds} {same : Bool}
    {w : List Char} : w ∈ (repetition id body bounds same).language ↔
      ∃ count, bounds.Allows count ∧ w ∈ body.repeated false count body.language := by
  rw [language]
  exact mem_repeatedWords

theorem widthAll_append (es es' : List Expr) :
    widthAll (es ++ es') = widthAll es + widthAll es' := by
  induction es with
  | nil => rw [List.nil_append, widthAll, Nat.zero_add]
  | cons e es ih => rw [List.cons_append, widthAll, widthAll, ih, Nat.add_assoc]

theorem languageAll_eq_prod (parts : List Expr) :
    languageAll parts = (parts.map language).prod := by
  induction parts with
  | nil => rfl
  | cons e es ih => rw [languageAll, ih, List.map_cons, List.prod_cons]

theorem samplesAll_eq_prod (slack : ℕ) (parts : List Expr) :
    samplesAll slack parts = (parts.map (samples slack)).prod := by
  induction parts with
  | nil => rfl
  | cons e es ih => rw [samplesAll, ih, List.map_cons, List.prod_cons]

theorem languageAll_append (es es' : List Expr) :
    languageAll (es ++ es') = languageAll es * languageAll es' := by
  simp only [languageAll_eq_prod, List.map_append, List.prod_append]

/-- A reading of expressions as sets of words, each built from those of its parts in the same way,
that keeps the width: repetitions whose bounds fix a number of times are carried out so often. -/
structure KeepsWidth (words : Expr → Language Char) : Prop where
  text : ∀ {id chars w}, w ∈ words (text id chars) → w = chars
  set : ∀ {id s w}, w ∈ words (set id s) → w.length = 1
  concat : ∀ id parts, words (concat id parts) = (parts.map words).prod
  repetition : ∀ {id body bounds same w}, bounds.most = some bounds.least →
    w ∈ words (repetition id body bounds same) →
    ∃ same', w ∈ body.repeated same' bounds.least (words body)
  group : ∀ id body capture, words (group id body capture) = words body

section

variable {words : Expr → Language Char}

/-- Words one after the other are as long as all together. -/
theorem length_of_mem_prod {parts : List Expr}
    (each : ∀ e ∈ parts, ∀ w ∈ words e, w.length = e.width) {w : List Char}
    (mem : w ∈ (parts.map words).prod) : w.length = widthAll parts := by
  induction parts generalizing w with
  | nil =>
    rw [List.map_nil, List.prod_nil, Language.mem_one] at mem
    rw [mem, widthAll, List.length_nil]
  | cons e es ih =>
    rw [List.map_cons, List.prod_cons, Language.mem_mul] at mem
    obtain ⟨first, hfirst, others, hothers, rfl⟩ := mem
    rw [List.length_append, each e List.mem_cons_self first hfirst,
      ih (fun e he => each e (List.mem_cons_of_mem _ he)) hothers, widthAll]

/-- **All words of a rigid expression have its width**, in every reading that keeps it. -/
theorem KeepsWidth.length_of_mem (keeps : KeepsWidth words) {e : Expr} (rigid : e.Rigid)
    {w : List Char} (mem : w ∈ words e) : w.length = e.width := by
  induction rigid generalizing w with
  | text => rw [keeps.text mem, width]
  | set => rw [keeps.set mem, width]
  | concat _ ih =>
    rw [keeps.concat] at mem
    rw [width]
    exact length_of_mem_prod (fun e he w hw => ih e he hw) mem
  | repetition _ most _ _ ih =>
    obtain ⟨same, mem⟩ := keeps.repetition most mem
    rw [width]
    exact length_of_mem_repeated (fun v hv => ih hv) mem
  | group _ ih =>
    rw [keeps.group] at mem
    rw [width]
    exact ih mem

end

/-- The words that an expression describes. -/
theorem keepsWidth_language : KeepsWidth language where
  text := by
    intro id chars w mem
    rwa [language] at mem
  set := by
    intro id s w mem
    rw [language] at mem
    obtain ⟨c, -, rfl⟩ := mem
    rfl
  concat := by
    intro id parts
    rw [language, languageAll_eq_prod]
  repetition := by
    intro id body bounds same w most mem
    obtain ⟨count, allows, mem⟩ := mem_language_repetition_iff_repeated.1 mem
    rw [allows.eq_least most] at mem
    exact ⟨false, mem⟩
  group := by
    intro id body capture
    rw [language]

/-- The ceiling of bounds that fix a number of times is that number. -/
theorem ceiling_eq_least {b : Bounds} (most : b.most = some b.least) (slack : ℕ) :
    b.ceiling slack = b.least := by
  rw [Bounds.ceiling, most, Option.getD_some]

/-- What is generated for an expression. -/
theorem keepsWidth_samples (slack : ℕ) : KeepsWidth (samples slack) where
  text := by
    intro id chars w mem
    rwa [samples] at mem
  set := by
    intro id s w mem
    rw [samples] at mem
    obtain ⟨c, -, -, rfl⟩ := mem
    rfl
  concat := by
    intro id parts
    rw [samples, samplesAll_eq_prod]
  repetition := by
    intro id body bounds same w most mem
    rw [samples] at mem
    obtain ⟨count, ⟨least, ceiling⟩, mem⟩ := mem
    rw [ceiling_eq_least most] at ceiling
    obtain rfl := le_antisymm ceiling least
    exact ⟨same, mem⟩
  group := by
    intro id body capture
    rw [samples]

variable {slack place : ℕ}

section

variable {parts : List Expr} {e : Expr} {w : List Char}

theorem Rigid.length_of_mem_language (rigid : e.Rigid) (mem : w ∈ e.language) :
    w.length = e.width :=
  keepsWidth_language.length_of_mem rigid mem

theorem Rigid.length_of_mem_samples (rigid : e.Rigid) (mem : w ∈ e.samples slack) :
    w.length = e.width :=
  (keepsWidth_samples slack).length_of_mem rigid mem

theorem length_of_mem_languageAll (rigid : ∀ e ∈ parts, e.Rigid) (mem : w ∈ languageAll parts) :
    w.length = widthAll parts := by
  rw [languageAll_eq_prod] at mem
  exact length_of_mem_prod (fun e he _ => (rigid e he).length_of_mem_language) mem

theorem length_of_mem_samplesAll (rigid : ∀ e ∈ parts, e.Rigid) (mem : w ∈ samplesAll slack parts) :
    w.length = widthAll parts := by
  rw [samplesAll_eq_prod] at mem
  exact length_of_mem_prod (fun e he _ => (rigid e he).length_of_mem_samples) mem

end

/-! ## Words with one node broken -/

theorem length_of_mem_corruptions {chars w : List Char} (mem : w ∈ corruptions chars) :
    w.length = chars.length := by
  obtain ⟨before, c, after, x, rfl, -, rfl⟩ := mem
  simp

/-- A corrupted text is another one. -/
theorem ne_of_mem_corruptions {chars w : List Char} (mem : w ∈ corruptions chars) : w ≠ chars := by
  obtain ⟨before, c, after, x, rfl, ne, rfl⟩ := mem
  intro eq
  exact ne (List.cons.inj (List.append_cancel_left eq)).1

/-- Where the node that is broken is no repetition, the word keeps its width. -/
theorem Rigid.length_of_mem_mutants {e : Expr} (rigid : e.Rigid)
    (plain : ∀ body bounds same, ¬ Part (.repetition place body bounds same) e) {w : List Char}
    (mem : w ∈ e.mutants slack place) : w.length = e.width := by
  induction rigid generalizing w with
  | text =>
    rw [width]
    exact length_of_mem_corruptions mem.2
  | set =>
    obtain ⟨-, c, -, -, rfl⟩ := mem
    rw [width, List.length_singleton]
  | @concat id parts all ih =>
    rw [mutants, mem_mutantsAll] at mem
    obtain ⟨before, e, after, rfl, mem⟩ := mem
    have he : e ∈ before ++ e :: after := by simp
    obtain ⟨u, hu, _, ⟨v, hv, x, hx, rfl⟩, rfl⟩ := Language.mem_mul.1 mem
    have first := length_of_mem_samplesAll (fun f hf => all f (List.mem_append_left _ hf)) hu
    have middle := ih e he (fun b bs s part => plain b bs s (.concat he part)) hv
    have last := length_of_mem_samplesAll
      (fun f hf => all f (List.mem_append_right _ (List.mem_cons_of_mem _ hf))) hx
    show (u ++ (v ++ x)).length = _
    rw [width, widthAll_append, widthAll, List.length_append, List.length_append, first, middle,
      last]
  | @repetition id body bounds same least most pos inner ih =>
    rw [mutants] at mem
    rcases mem with ⟨rfl, -⟩ | ⟨-, count, within, mem⟩
    · exact absurd .refl (plain body bounds same)
    rw [ceiling_eq_least most] at within
    obtain rfl : count = bounds.least := by omega
    rw [width]
    exact length_of_mem_repeated
      (fun v hv => ih (fun b bs s part => plain b bs s (.repetition part)) hv) mem
  | group _ ih =>
    rw [width]
    exact ih (fun b bs s part => plain b bs s (.group part)) mem

/-- **A broken set or text spoils a word**, since every other part keeps its width: what the node
produced stands where only words of the node can stand. -/
theorem Rigid.not_mem_language_of_mem_mutants {e : Expr} (rigid : e.Rigid)
    (plain : ∀ body bounds same, ¬ Part (.repetition place body bounds same) e) {w : List Char}
    (mem : w ∈ e.mutants slack place) : w ∉ e.language := by
  induction rigid generalizing w with
  | text =>
    rw [language]
    exact ne_of_mem_corruptions mem.2
  | set =>
    obtain ⟨-, c, -, rejects, rfl⟩ := mem
    rw [language]
    rintro ⟨c', accepts, eq⟩
    obtain rfl := List.singleton_inj.1 eq
    exact Bool.false_ne_true (rejects.symm.trans accepts)
  | @concat id parts all ih =>
    rw [mutants, mem_mutantsAll] at mem
    obtain ⟨before, e, after, rfl, mem⟩ := mem
    have he : e ∈ before ++ e :: after := by simp
    have inner (b : Expr) (bs : Bounds) (s : Bool) : ¬ Part (.repetition place b bs s) e :=
      fun part => plain b bs s (.concat he part)
    obtain ⟨u, hu, _, ⟨v, hv, x, hx, rfl⟩, rfl⟩ := Language.mem_mul.1 mem
    rw [language, languageAll_append, languageAll]
    rintro ⟨u', hu', _, ⟨v', hv', x', hx', rfl⟩, eq⟩
    have eq : u' ++ (v' ++ x') = u ++ (v ++ x) := eq
    -- the two readings take the same characters for the part that holds the node
    have left (f : Expr) (hf : f ∈ before) : f.Rigid := all f (List.mem_append_left _ hf)
    have first := length_of_mem_samplesAll left hu
    have first' := length_of_mem_languageAll left hu'
    obtain ⟨-, eq⟩ := List.append_inj eq (first'.trans first.symm)
    have middle := (all e he).length_of_mem_mutants inner hv
    have middle' := (all e he).length_of_mem_language hv'
    obtain ⟨rfl, -⟩ := List.append_inj eq (middle'.trans middle.symm)
    exact ih e he inner hv hv'
  | @repetition id body bounds same least most pos rigid ih =>
    have inner (b : Expr) (bs : Bounds) (s : Bool) : ¬ Part (.repetition place b bs s) body :=
      fun part => plain b bs s (.repetition part)
    rw [mutants] at mem
    rcases mem with ⟨rfl, -⟩ | ⟨-, count, within, mem⟩
    · exact absurd .refl (plain body bounds same)
    rw [ceiling_eq_least most] at within
    obtain rfl : count = bounds.least := by omega
    intro mem'
    obtain ⟨count', allows, mem'⟩ := mem_language_repetition_iff_repeated.1 mem'
    rw [allows.eq_least most] at mem'
    exact not_mem_repeated (fun v hv => rigid.length_of_mem_mutants inner hv)
      (fun v hv => rigid.length_of_mem_language hv) (fun v hv => ih inner hv) least mem mem'
  | group _ ih =>
    rw [language]
    exact ih (fun b bs s part => plain b bs s (.group part)) mem

/-- **A broken repetition changes the width**, unless it lies in another one, where what is missing
could come from a further turn. -/
theorem Rigid.length_ne_width_of_mem_mutants {e : Expr} (rigid : e.Rigid)
    (own : ∀ f, Part f e → f.id = place → ∃ body bounds same, f = .repetition place body bounds same)
    (outermost : ∀ id body bounds same, Part (.repetition id body bounds same) e →
      ∀ f, Part f body → f.id ≠ place) {w : List Char} (mem : w ∈ e.mutants slack place) :
    w.length ≠ e.width := by
  induction rigid generalizing w with
  | text =>
    obtain ⟨_, _, _, eq⟩ := own _ .refl mem.1
    cases eq
  | set =>
    obtain ⟨_, _, _, eq⟩ := own _ .refl mem.1
    cases eq
  | @concat id parts all ih =>
    rw [mutants, mem_mutantsAll] at mem
    obtain ⟨before, e, after, rfl, mem⟩ := mem
    have he : e ∈ before ++ e :: after := by simp
    obtain ⟨u, hu, _, ⟨v, hv, x, hx, rfl⟩, rfl⟩ := Language.mem_mul.1 mem
    have first := length_of_mem_samplesAll (fun f hf => all f (List.mem_append_left _ hf)) hu
    have last := length_of_mem_samplesAll
      (fun f hf => all f (List.mem_append_right _ (List.mem_cons_of_mem _ hf))) hx
    have middle := ih e he (fun f part => own f (.concat he part))
      (fun i b bs s part => outermost i b bs s (.concat he part)) hv
    show (u ++ (v ++ x)).length ≠ _
    rw [width, widthAll_append, widthAll, List.length_append, List.length_append]
    omega
  | @repetition id body bounds same least most pos rigid ih =>
    rw [mutants] at mem
    rcases mem with ⟨-, count, outside, mem⟩ | ⟨-, count, within, mem⟩
    · have ne : count ≠ bounds.least := by
        rcases outside with lt | ⟨most', bounded, lt, -⟩
        · exact lt.ne
        · obtain rfl := Option.some.inj (most.symm.trans bounded)
          exact lt.ne'
      rw [width, length_of_mem_repeated (fun v hv => rigid.length_of_mem_samples hv) mem]
      exact repeatedWidth_ne pos ne
    · rw [mutants_eq_zero (outermost id body bounds same .refl)] at mem
      exact absurd mem (not_mem_repeated_zero (lt_of_lt_of_le (by omega) within.1) w)
  | group _ ih =>
    rw [width]
    exact ih (fun f part => own f (.group part))
      (fun i b bs s part => outermost i b bs s (.group part)) mem

end Expr

/-! ## Trees -/

namespace Tree

variable {t : Tree}

/-- What occurs in the expression of a node is the expression of a node to which it leads. -/
theorem exists_leads_of_part (ordered : t.Ordered) {e f : Expr} (part : Expr.Part e f) {id : ℕ}
    (is : f = t.expr id) : ∃ id', t.Leads id id' ∧ e = t.expr id' := by
  induction part generalizing id with
  | refl => exact ⟨id, .refl, is⟩
  | @concat _ parts f mem _ ih | @alternation _ parts f mem _ ih =>
    rcases look : t.shape? id with _ | shape
    · rw [expr_eq_default look] at is
      cases is
    rw [expr_eq ordered look] at is
    cases shape <;> cases is
    obtain ⟨child, owns, rfl⟩ := List.mem_map.1 mem
    obtain ⟨id', leads, eq⟩ := ih rfl
    exact ⟨id', .head ⟨_, look, owns⟩ leads, eq⟩
  | repetition _ ih | group _ ih =>
    rcases look : t.shape? id with _ | shape
    · rw [expr_eq_default look] at is
      cases is
    rw [expr_eq ordered look] at is
    cases shape <;> cases is
    obtain ⟨id', leads, eq⟩ := ih rfl
    exact ⟨id', .head ⟨_, look, List.mem_cons_self⟩ leads, eq⟩

theorem shape?_of_expr_repetition (ordered : t.Ordered) {id place : ℕ} {body : Expr}
    {bounds : Bounds} {same : Bool} (h : t.expr id = .repetition place body bounds same) :
    place = id ∧ ∃ child, t.shape? id = some (.repetition child bounds same) ∧
      body = t.expr child := by
  rcases look : t.shape? id with _ | shape
  · rw [expr_eq_default look] at h
    cases h
  · rw [expr_eq ordered look] at h
    cases shape <;> cases h
    exact ⟨rfl, _, rfl, rfl⟩

/-- There are no alternatives and no backreferences, and every repetition carries a part that is not
empty out a fixed number of times, at least once. -/
structure Rigid (t : Tree) : Prop where
  alternation : ∀ id branches, t.shape? id ≠ some (.alternation branches)
  backref : ∀ id target, t.shape? id ≠ some (.backref target)
  repetition : ∀ id body bounds same, t.shape? id = some (.repetition body bounds same) →
    1 ≤ bounds.least ∧ bounds.most = some bounds.least ∧ 0 < (t.expr body).width

theorem Rigid.expr (rigid : t.Rigid) (ordered : t.Ordered) (id : ℕ) : (t.expr id).Rigid := by
  induction id using Nat.strong_induction_on with
  | _ id ih =>
    rcases look : t.shape? id with _ | shape
    · rw [expr_eq_default look]
      exact .text
    have earlier := ordered id shape look
    rw [expr_eq ordered look]
    cases shape with
    | text chars => exact .text
    | set s => exact .set
    | concat parts =>
      refine .concat fun e he => ?_
      obtain ⟨child, mem, rfl⟩ := List.mem_map.1 he
      exact ih child (earlier child mem)
    | alternation branches => exact absurd look (rigid.alternation id branches)
    | repetition body bounds same =>
      obtain ⟨least, most, pos⟩ := rigid.repetition id body bounds same look
      exact .repetition least most pos (ih body (earlier body List.mem_cons_self))
    | group body name capture => exact .group (ih body (earlier body List.mem_cons_self))
    | backref target => exact absurd look (rigid.backref id target)

/-- The node at a place is a repetition. -/
def IsRepetition (t : Tree) (id : ℕ) : Prop :=
  ∃ body bounds same, t.shape? id = some (.repetition body bounds same)

/-- **A broken node spoils the word** of a rigid tree, if it is no repetition inside another
repetition. -/
theorem Rigid.not_mem_language (rigid : t.Rigid) (ordered : t.Ordered) {root place slack : ℕ}
    (lt : root < t.size)
    (outermost : t.IsRepetition place → ∀ above, t.Ancestor above place → ¬ t.IsRepetition above)
    {w : List Char} (mem : w ∈ (t.expr root).mutants slack place) : w ∉ (t.expr root).language := by
  have whole := rigid.expr ordered root
  -- a part at the place is the expression of the node there
  have own (e : Expr) (part : Expr.Part e (t.expr root)) (at_place : e.id = place) :
      e = t.expr place ∧ place < t.size := by
    obtain ⟨id, le, rfl⟩ := exists_expr_of_part ordered part
    have lt := le.trans_lt lt
    rw [id_expr ordered lt] at at_place
    subst at_place
    exact ⟨rfl, lt⟩
  by_cases repeats : t.IsRepetition place
  · obtain ⟨body, bounds, same, look⟩ := id repeats
    refine fun word => whole.length_ne_width_of_mem_mutants (fun e part eq => ?_) ?_ mem
      (whole.length_of_mem_language word)
    · rw [(own e part eq).1, expr_eq ordered look]
      exact ⟨_, _, _, rfl⟩
    · intro id body bounds same part e inner eq
      obtain ⟨above, le, is⟩ := exists_expr_of_part ordered part
      obtain ⟨rfl, child, look', rfl⟩ := shape?_of_expr_repetition ordered is.symm
      have owns : t.Owns id child := ⟨_, look', List.mem_cons_self⟩
      obtain ⟨below, leads, rfl⟩ := exists_leads_of_part ordered inner rfl
      have lt' : below < t.size := (leads.le ordered).trans_lt ((owns.lt ordered).trans owns.lt_size)
      rw [id_expr ordered lt'] at eq
      subst eq
      exact outermost ⟨_, _, _, look⟩ id (.head' owns leads) ⟨_, _, _, look'⟩
  · refine whole.not_mem_language_of_mem_mutants (fun body bounds same part => repeats ?_) mem
    obtain ⟨-, child, look, -⟩ := shape?_of_expr_repetition ordered (own _ part rfl).1.symm
    exact ⟨child, bounds, same, look⟩

end Tree

/-! ## Patterns -/

namespace Compiled

variable {source : String} {c : Compiled} {σ : Type} [RandomSource σ]

/-- The children of a node are all different. -/
theorem nodup_children (h : ofPattern? source = .ok c) {id : ℕ} {shape : Shape}
    (look : c.tree.shape? id = some shape) : shape.children.Nodup := by
  have lt := Tree.lt_size_of_shape? look
  rw [ofPattern?_size h] at lt
  refine (ofPattern?_block h).nodup (Nat.zero_le id) (Nat.le_of_lt_succ lt) ?_
  rw [Tree.children?, look]
  rfl

/-- What is generated for a pattern with a marker has one of its candidates broken. -/
theorem exists_mem_mutants (h : ofPattern? source = .ok c) (marked : c.hasMarker = true)
    (plain : ∀ id target, c.tree.shape? id ≠ some (.backref target)) {settings : Settings}
    {text : String} {g g' : σ} (run : c.sample source settings g = .ok text g') :
    ∃ place ∈ c.candidates, text.toList ∈ c.expr.mutants settings.slack place := by
  obtain ⟨place, g₁, chars, selected, sampled, rfl⟩ := (sample_eq_ok_iff marked).1 run
  obtain ⟨candidate, eligible⟩ := Tree.selectInvalid_eq_ok selected
  obtain ⟨shape, look, -⟩ := Tree.exists_shape_of_isInvalidatable eligible
  have lt := Tree.lt_size_of_shape? look
  have toward : c.expr.Toward settings (Route.toward c.tree place) place :=
    Tree.toward (ofPattern?_wellFormed h) (ofPattern?_linked h) (fun _ _ => ofPattern?_regular h)
      plain (fun _ _ => nodup_children h) eligible (leads_root h lt)
  refine ⟨place, candidate, ?_⟩
  rw [String.toList_ofList]
  obtain ⟨state, generated, -⟩ := Expr.sample_eq_ok_iff.1 sampled
  exact Expr.mem_mutants toward generated

end Compiled

namespace Pattern

variable {source : String} {p : Pattern} {σ : Type} [RandomSource σ]

/-- **Strings that can be made invalid always are.**  If a pattern has neither alternatives nor
backreferences, if its repetitions carry parts that are not empty out a fixed number of times, at
least once, and if no repetition inside another one is a candidate, then whatever is generated for
it while a candidate breaks its rule does not match, and the check never refuses it. -/
theorem generate_ne_stillMatches (h : InUse source p) (marked : p.isInvalidating = true)
    (rigid : p.compiled.tree.Rigid)
    (outermost : ∀ place ∈ p.compiled.candidates, p.compiled.tree.IsRepetition place →
      ∀ above, p.compiled.tree.Ancestor above place → ¬ p.compiled.tree.IsRepetition above)
    (settings : Settings) (g : σ) :
    (∀ pattern text, (p.generate settings g).1 ≠ .error (.stillMatches pattern text)) ∧
      ∀ text, (p.generate settings g).1 = .ok text → (p.fullMatch text).1 = false := by
  have root : p.compiled.root < p.compiled.tree.size := by
    rw [Compiled.ofPattern?_size h.invariant.2.1]
    exact Nat.lt_succ_self _
  have rejected {text : String} {g' : σ}
      (run : p.compiled.sample p.source settings g = .ok text g') :
      (p.fullMatch text).1 = false := by
    rw [h.invariant.1] at run
    obtain ⟨place, candidate, mem⟩ :=
      Compiled.exists_mem_mutants h.invariant.2.1 marked rigid.backref run
    rw [Bool.eq_false_iff]
    intro matched
    exact rigid.not_mem_language h.wellFormed.ordered root (outermost place candidate) mem
      ((h.fullMatch_iff_mem_language rigid.backref text).1 matched)
  rcases run : p.compiled.sample p.source settings g with ⟨text, g'⟩ | ⟨e, g'⟩
  · have result : (p.generate settings g).1 = .ok text := by
      unfold generate
      rw [run]
      dsimp only
      split
      · rw [if_neg (Bool.eq_false_iff.1 (rejected run))]
      · rfl
    rw [result]
    refine ⟨fun _ _ => nofun, fun text' eq => ?_⟩
    cases eq
    exact rejected run
  · have result : (p.generate settings g).1 = .error e := by
      unfold generate
      rw [run]
    rw [result]
    refine ⟨fun pattern text eq => ?_, fun _ => nofun⟩
    cases eq
    exact p.compiled.spares_sample p.source settings pattern text g g' run

/-- A character that is left out, behind a part that stands twice. -/
theorem generate_ne_stillMatches_omitted :
    ∃ p, InUse "(?:a[bc])\x7b2\x7dd\\i\x7b3\x7d" p ∧
      (p.generate { slack := 1 } (WordStream.ofWords #[0])).1 = .ok "abab" ∧
      (p.fullMatch "abab").1 = false := by
  have run : (ofString? "(?:a[bc])\x7b2\x7dd\\i\x7b3\x7d").toOption.map (fun p =>
      (p.isInvalidating,
        p.compiled.tree.nodes.all (fun node => match node.shape with
          | .repetition body bounds _ => decide (1 ≤ bounds.least ∧
              bounds.most = some bounds.least ∧ 0 < (p.compiled.tree.expr body).width)
          | .alternation _ | .backref _ => false
          | .text _ | .set _ | .concat _ | .group _ _ _ => true),
        (p.compiled.candidates = [6] ∧ p.compiled.tree.size = 8 ∧
          p.compiled.tree.shape? 7 = some (.concat [4, 6]) : Bool),
        (p.generate { slack := 1 } (WordStream.ofWords #[0])).1)) =
        some (true, true, true, .ok "abab") := by
    decide +kernel
  obtain ⟨p, h, all⟩ := exists_inUse run
  have marked : p.isInvalidating = true := congrArg (fun r => r.1) all
  have shapes := congrArg (fun r => r.2.1) all
  obtain ⟨candidates, size, last⟩ := of_decide_eq_true (congrArg (fun r => r.2.2.1) all)
  have result : (p.generate { slack := 1 } (WordStream.ofWords #[0])).1 = .ok "abab" :=
    congrArg (fun r => r.2.2.2) all
  have each (id : ℕ) (shape : Shape) (look : p.compiled.tree.shape? id = some shape) :=
    Tree.shape_of_all (f := fun shape => match shape with
      | .repetition body bounds _ => decide (1 ≤ bounds.least ∧ bounds.most = some bounds.least ∧
          0 < (p.compiled.tree.expr body).width)
      | .alternation _ | .backref _ => false
      | .text _ | .set _ | .concat _ | .group _ _ _ => true) shapes look
  have rigid : p.compiled.tree.Rigid := by
    refine ⟨fun id branches look => ?_, fun id target look => ?_, fun id body bounds same look => ?_⟩
    · cases each id _ look
    · cases each id _ look
    · exact of_decide_eq_true (each id _ look)
  -- the only candidate is owned by the last node
  have outermost (place : ℕ) (candidate : place ∈ p.compiled.candidates)
      (_ : p.compiled.tree.IsRepetition place) (above : ℕ)
      (ancestor : p.compiled.tree.Ancestor above place) : ¬ p.compiled.tree.IsRepetition above := by
    rintro ⟨body, bounds, same, look⟩
    obtain ⟨owner, leads, owns⟩ := Relation.TransGen.tail'_iff.1 ancestor
    have leads : p.compiled.tree.Leads above owner := leads
    have lt := (owns.lt h.wellFormed.ordered).trans_le (leads.le h.wellFormed.ordered)
    have lt' : above < 8 := size ▸ Tree.lt_size_of_shape? look
    rw [candidates, List.mem_singleton] at candidate
    obtain rfl : above = 7 := by omega
    cases last.symm.trans look
  have guarantee := generate_ne_stillMatches h marked rigid outermost { slack := 1 }
    (WordStream.ofWords #[0])
  exact ⟨p, h, result, guarantee.2 "abab" result⟩

end Pattern

end PatternSampler
