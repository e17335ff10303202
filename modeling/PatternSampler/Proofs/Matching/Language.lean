/-
# The language of an expression

Without backreferences it does not matter what has been captured, and an expression stands for a
set of words.  An expression matches exactly the words of its language.  Of a repetition without an
upper bound the occurrences that read nothing can be dropped, so nothing is lost by going on only
as long as something is read.

* `Expr.language` is the set of words, by recursion over the expression.
* `Expr.spells` : matching an expression and reading a word of its language are the same.
* `Tree.fullMatch_program_iff_mem_language` : the verdict on a string tells whether it is in the
  language of the tree.
-/
import PatternSampler.Proofs.Program.Verdict

namespace PatternSampler

/-! ## Languages -/

/-- The words made of words of a language, as many as the bounds allow. -/
def Bounds.words (b : Bounds) (L : Language Char) : Language Char :=
  {w | ∃ count, b.Allows count ∧ w ∈ L ^ count}

namespace Expr

/-- The words of a repeated part whose own words are given.  Of a repeated text only the last
character is repeated. -/
def repeatedWords (bounds : Bounds) (own : Language Char) : Expr → Language Char
  | text _ (first :: others) =>
    {w | ∃ count, bounds.Allows count ∧ w = (first :: others).dropLast ++
      List.replicate count ((first :: others).getLast (List.cons_ne_nil first others))}
  | _ => bounds.words own

mutual

/-- The words that an expression stands for.  A backreference has no words of its own. -/
def language : Expr → Language Char
  | text _ chars => {chars}
  | set _ s => {w | ∃ c, s.accepts c = true ∧ w = [c]}
  | concat _ parts => languageAll parts
  | alternation _ branches => languageAny branches
  | repetition _ body bounds _ => body.repeatedWords bounds body.language
  | group _ body _ => body.language
  | backref _ _ => 0

/-- The words made of one word of each expression. -/
def languageAll : List Expr → Language Char
  | [] => 1
  | e :: es => e.language * languageAll es

/-- The words of any of the expressions. -/
def languageAny : List Expr → Language Char
  | [] => 0
  | e :: es => e.language + languageAny es

end

theorem mem_languageAny {branches : List Expr} {w : List Char} :
    w ∈ languageAny branches ↔ ∃ e ∈ branches, w ∈ e.language := by
  induction branches with
  | nil =>
    rw [languageAny]
    simp
  | cons e es ih =>
    rw [languageAny, Language.mem_add, ih]
    simp

theorem languageAny_append (es es' : List Expr) :
    languageAny (es ++ es') = languageAny es + languageAny es' := by
  induction es with
  | nil => rw [List.nil_append, languageAny, zero_add]
  | cons e es ih => rw [List.cons_append, languageAny, languageAny, ih, add_assoc]

theorem languageAll_replicate (e : Expr) (count : ℕ) :
    languageAll (List.replicate count e) = e.language ^ count := by
  induction count with
  | zero => rw [List.replicate_zero, languageAll, pow_zero]
  | succ count ih => rw [List.replicate_succ, languageAll, ih, pow_succ']

/-- The only word made of `count` times the same character. -/
theorem mem_singleton_pow {c : Char} {count : ℕ} {w : List Char} :
    w ∈ ({[c]} : Language Char) ^ count ↔ w = List.replicate count c := by
  induction count generalizing w with
  | zero => rw [pow_zero, Language.mem_one, List.replicate_zero]
  | succ count ih =>
    rw [pow_succ', Language.mem_mul, List.replicate_succ]
    constructor
    · rintro ⟨_, rfl, b, hb, rfl⟩
      rw [ih.1 hb, List.singleton_append]
    · rintro rfl
      exact ⟨[c], rfl, List.replicate count c, ih.2 rfl, rfl⟩

/-- The words of a repetition: the lead, then words of the unit as often as the bounds allow. -/
theorem mem_language_repetition {id : ℕ} {body : Expr} {bounds : Bounds} {same : Bool}
    {w : List Char} :
    w ∈ (repetition id body bounds same).language ↔
      ∃ count, bounds.Allows count ∧ ∃ v ∈ body.unit.language ^ count, body.lead ++ v = w := by
  have plain (e : Expr) (nolead : e.lead = []) : w ∈ bounds.words e.language ↔
        ∃ count, bounds.Allows count ∧ ∃ v ∈ e.language ^ count, e.lead ++ v = w := by
    refine exists_congr fun count => and_congr_right fun _ => ?_
    rw [nolead]
    simp
  rw [language]
  rcases body with ⟨tid, _ | ⟨first, others⟩⟩ | _ | _ | _ | _ | _ | _
  · exact plain (text tid []) rfl
  · have last : (text tid (first :: others)).unit =
        text tid [(first :: others).getLast (List.cons_ne_nil first others)] := by
      rw [unit, List.getLast?_eq_some_getLast (List.cons_ne_nil first others)]
      rfl
    rw [last, language]
    refine exists_congr fun count => and_congr_right fun _ => ?_
    constructor
    · rintro rfl
      exact ⟨_, mem_singleton_pow.2 rfl, rfl⟩
    · rintro ⟨v, hv, rfl⟩
      rw [mem_singleton_pow.1 hv]
      rfl
  all_goals exact plain _ rfl

/-- The same as an equation of languages. -/
theorem language_repetition (id : ℕ) (body : Expr) (bounds : Bounds) (same : Bool) :
    (repetition id body bounds same).language =
      {body.lead} * bounds.words body.unit.language := by
  ext w
  rw [mem_language_repetition, Language.mem_mul]
  constructor
  · rintro ⟨count, allows, v, hv, rfl⟩
    exact ⟨_, rfl, v, ⟨count, allows, hv⟩, rfl⟩
  · rintro ⟨_, rfl, v, ⟨count, allows, hv⟩, rfl⟩
    exact ⟨count, allows, v, hv, rfl⟩

/-! ## Passages that spell words -/

/-- A passage reads the words of a language, whatever has been captured. -/
structure Spells (input : List Char) (D : Passage) (L : Language Char) : Prop where
  sound : ∀ {s t : Place}, D s t → ∃ w ∈ L, w <+: input.drop s.pos ∧ t.pos = s.pos + w.length
  complete : ∀ {s : Place} {w : List Char}, w ∈ L → w <+: input.drop s.pos →
    ∃ captures, D s ⟨s.pos + w.length, captures⟩

variable {input : List Char} {D D₁ D₂ : Passage} {L L₁ L₂ : Language Char} {R : Expr → Passage}

theorem Spells.congr {D' : Passage} (h : Spells input D L) (iff : ∀ s t, D s t ↔ D' s t) :
    Spells input D' L where
  sound := fun run => h.sound ((iff _ _).2 run)
  complete := by
    intro s w hw pre
    obtain ⟨captures, run⟩ := h.complete hw pre
    exact ⟨captures, (iff _ _).1 run⟩

theorem Spells.reads (chars : List Char) : Spells input (Reads input chars) {chars} where
  sound := by
    rintro s _ ⟨pre, rfl⟩
    exact ⟨chars, rfl, pre, rfl⟩
  complete := by
    rintro s _ rfl pre
    exact ⟨s.captures, pre, rfl⟩

theorem Spells.comp (first : Spells input D₁ L₁) (second : Spells input D₂ L₂) :
    Spells input (Relation.Comp D₁ D₂) (L₁ * L₂) where
  sound := by
    rintro s u ⟨t, hst, htu⟩
    obtain ⟨a, ha, pre, eq⟩ := first.sound hst
    obtain ⟨b, hb, pre', eq'⟩ := second.sound htu
    rw [eq] at pre'
    refine ⟨a ++ b, Language.mem_mul.2 ⟨a, ha, b, hb, rfl⟩, append_prefix_drop.2 ⟨pre, pre'⟩, ?_⟩
    rw [eq', eq, List.length_append, Nat.add_assoc]
  complete := by
    intro s w hw pre
    obtain ⟨a, ha, b, hb, rfl⟩ := Language.mem_mul.1 hw
    obtain ⟨pre, pre'⟩ := append_prefix_drop.1 pre
    obtain ⟨captures, hst⟩ := first.complete ha pre
    obtain ⟨captures', htu⟩ := second.complete (s := ⟨_, captures⟩) hb pre'
    rw [List.length_append, ← Nat.add_assoc]
    exact ⟨captures', _, hst, htu⟩

theorem Spells.inOrder {es : List Expr} (each : ∀ e ∈ es, Spells input (R e) e.language) :
    Spells input (InOrder R es) (languageAll es) := by
  induction es with
  | nil =>
    refine ⟨?_, ?_⟩
    · rintro s _ ⟨⟩
      exact ⟨[], rfl, List.nil_prefix, rfl⟩
    · rintro s _ rfl -
      exact ⟨s.captures, .nil s⟩
  | cons e es ih =>
    obtain ⟨first, others⟩ := List.forall_mem_cons.1 each
    exact (first.comp (ih others)).congr fun s u => inOrder_cons_iff.symm

/-- Occurrences that read nothing can be left out. -/
theorem Spells.advancing {e : Expr} (unit : Spells input (R e) e.language) {count : ℕ} {s : Place}
    {w : List Char} (hw : w ∈ e.language ^ count) (pre : w <+: input.drop s.pos) :
    ∃ fewer captures, Advancing R (List.replicate fewer e) s ⟨s.pos + w.length, captures⟩ := by
  induction count generalizing s w with
  | zero =>
    rw [pow_zero, Language.mem_one] at hw
    subst hw
    exact ⟨0, s.captures, .nil s⟩
  | succ count ih =>
    rw [pow_succ', Language.mem_mul] at hw
    obtain ⟨a, ha, b, hb, rfl⟩ := hw
    obtain ⟨first, others⟩ := append_prefix_drop.1 pre
    by_cases empty : a = []
    · subst empty
      exact ih hb pre
    · obtain ⟨captures, step⟩ := unit.complete ha first
      obtain ⟨fewer, captures', rest⟩ := ih (s := ⟨_, captures⟩) hb others
      rw [List.length_append, ← Nat.add_assoc]
      exact ⟨fewer + 1, captures',
        .cons step (Nat.lt_add_of_pos_right (List.length_pos_iff.2 empty)) rest⟩

/-- Going on as the bounds allow reads the words that the bounds allow. -/
theorem Spells.repeats {e : Expr} (unit : Spells input (R e) e.language) (bounds : Bounds) :
    Spells input (bounds.Repeats R e) (bounds.words e.language) := by
  have times (count : ℕ) :
      Spells input (InOrder R (List.replicate count e)) (e.language ^ count) := by
    rw [← languageAll_replicate]
    exact .inOrder fun e' he => (List.eq_of_mem_replicate he) ▸ unit
  obtain ⟨least, most⟩ := bounds
  refine ⟨?_, ?_⟩
  · rintro s u ⟨t, first, others⟩
    -- with those that may follow, the number of occurrences is one that the bounds allow
    have more : ∃ extra, Bounds.Allows ⟨least, most⟩ (least + extra) ∧
        InOrder R (List.replicate extra e) t u := by
      cases most with
      | none =>
        obtain ⟨extra, others⟩ := others
        exact ⟨extra, ⟨Nat.le_add_right _ _, by simp⟩, others.inOrder⟩
      | some most =>
        obtain ⟨extra, le, others⟩ := others
        refine ⟨extra, ⟨Nat.le_add_right _ _, ?_⟩, others⟩
        rintro _ ⟨⟩
        have le' : extra ≤ most - least := le
        show least + extra ≤ max least most
        omega
    obtain ⟨extra, allows, others⟩ := more
    obtain ⟨w, hw, reads⟩ := ((times least).comp (times extra)).sound ⟨t, first, others⟩
    rw [← pow_add] at hw
    exact ⟨w, ⟨_, allows, hw⟩, reads⟩
  · rintro s w ⟨count, ⟨le, upper⟩, hw⟩ pre
    obtain ⟨extra, rfl⟩ := Nat.exists_eq_add_of_le le
    rw [pow_add, Language.mem_mul] at hw
    obtain ⟨a, ha, b, hb, rfl⟩ := hw
    obtain ⟨first, others⟩ := append_prefix_drop.1 pre
    obtain ⟨captures, hst⟩ := (times least).complete ha first
    rw [List.length_append, ← Nat.add_assoc]
    cases most with
    | none =>
      -- occurrences that read nothing are dropped
      obtain ⟨fewer, captures', rest⟩ := unit.advancing (s := ⟨_, captures⟩) hb others
      exact ⟨captures', _, hst, fewer, rest⟩
    | some most =>
      have le : extra ≤ most - least := by
        have : least + extra ≤ max least most := upper most rfl
        omega
      obtain ⟨captures', rest⟩ := (times extra).complete (s := ⟨_, captures⟩) hb others
      exact ⟨captures', _, hst, extra, le, rest⟩

/-- **Matching an expression is reading a word of its language**, if there are no backreferences. -/
theorem spells {e : Expr} (plain : e.Scoped Set.univ) :
    Spells input (Matches input e) e.language := by
  induction e using Expr.unit_induct with
  | text id chars => exact (Spells.reads chars).congr fun s t => matches_text_iff.symm
  | set id s =>
    refine Spells.congr ⟨?_, ?_⟩ fun s t => matches_set_iff.symm
    · rintro s t ⟨c, ok, reads⟩
      obtain ⟨w, rfl, read⟩ := (Spells.reads [c]).sound reads
      exact ⟨[c], ⟨c, ok, rfl⟩, read⟩
    · rintro s _ ⟨c, ok, rfl⟩ pre
      exact ⟨s.captures, c, ok, pre, rfl⟩
  | concat id parts ih =>
    cases plain with
    | concat all =>
      exact (Spells.inOrder fun e he => ih e he (all e he)).congr fun s t =>
        matches_concat_iff.symm
  | alternation id branches ih =>
    cases plain with
    | alternation _ all =>
      refine Spells.congr ⟨?_, fun hw pre => ?_⟩ fun s t => matches_alternation_iff.symm
      · rintro s t ⟨e, he, run⟩
        obtain ⟨w, hw, reads⟩ := (ih e he (all e he)).sound run
        exact ⟨w, mem_languageAny.2 ⟨e, he, hw⟩, reads⟩
      · obtain ⟨e, he, hw⟩ := mem_languageAny.1 hw
        obtain ⟨captures, run⟩ := (ih e he (all e he)).complete hw pre
        exact ⟨captures, e, he, run⟩
  | repetition id body bounds same ih =>
    cases plain with
    | repetition inner =>
      have run := (Spells.reads body.lead).comp ((ih inner.unit).repeats bounds)
      rw [language_repetition]
      exact run.congr fun s t => matches_repetition_iff.symm
  | group id body capture ih =>
    cases plain with
    | group inner => exact (ih inner).congr fun s t => matches_group_iff.symm
    | capture inner =>
      rw [Set.insert_eq_of_mem (Set.mem_univ _)] at inner
      refine Spells.congr ⟨?_, fun hw pre => ?_⟩ fun s t => matches_capture_iff.symm
      · rintro s _ ⟨u, run, rfl⟩
        exact (ih inner).sound (t := u) run
      · obtain ⟨captures, run⟩ := (ih inner).complete hw pre
        exact ⟨_, _, run, rfl⟩
  | backref id target =>
    cases plain with
    | backref visible => exact absurd (Set.mem_univ _) visible

/-- The words that an expression matches as a whole are those of its language. -/
theorem matchesAll_iff_mem_language {e : Expr} (plain : e.Scoped Set.univ) :
    e.MatchesAll input ↔ input ∈ e.language := by
  constructor
  · rintro ⟨captures, run⟩
    obtain ⟨w, hw, pre, eq⟩ := (spells plain).sound run
    have whole : w = input := pre.eq_of_length (by simpa using eq.symm)
    exact whole ▸ hw
  · intro hw
    obtain ⟨captures, run⟩ :=
      (spells plain).complete (s := ⟨0, fun _ => none⟩) hw (List.prefix_refl input)
    rw [Nat.zero_add] at run
    exact ⟨captures, run⟩

end Expr

namespace Tree

/-- **The verdict on a string tells whether it is in the language of the tree**, if references
lead to earlier nodes, every alternation has a branch, there are no backreferences and the slots
fit. -/
theorem fullMatch_program_iff_mem_language {t : Tree} (ordered : t.Ordered)
    (branches : ∀ id branches, t.shape? id = some (.alternation branches) → branches ≠ [])
    (plain : ∀ id target, t.shape? id ≠ some (.backref target)) {root : ℕ} (fit : t.SlotsFit root)
    (input : List Char) :
    (t.program root).fullMatch input = true ↔ input ∈ (t.expr root).language := by
  have sees := scoped_univ ordered branches plain root
  have visible : ∀ n ∉ Set.univ, n ≤ t.captureCount := fun n hn => absurd (Set.mem_univ n) hn
  rw [fullMatch_program_iff_of_scoped ordered fit sees visible,
    Expr.matchesAll_iff_mem_language sees]

/-- Twice the same part, at least two times or once. -/
def twice : Tree :=
  { nodes := #[{ shape := .text ['a', 'b'] }, { shape := .group 0 none (some 1) },
      { shape := .repetition 1 ⟨2, none⟩ false }, { shape := .alternation [2, 1] }] }

theorem fullMatch_program_iff_mem_language_twice :
    (twice.Ordered ∧
      (∀ id branches, twice.shape? id = some (.alternation branches) → branches ≠ []) ∧
      ∀ id target, twice.shape? id ≠ some (.backref target)) ∧
    (twice.program 3).fullMatch ['a', 'b', 'a', 'b'] = true := by
  have cases (id : ℕ) (shape : Shape) (h : twice.shape? id = some shape) :
      id = 0 ∧ shape = .text ['a', 'b'] ∨ id = 1 ∧ shape = .group 0 none (some 1) ∨
        id = 2 ∧ shape = .repetition 1 ⟨2, none⟩ false ∨ id = 3 ∧ shape = .alternation [2, 1] := by
    have lt : id < 4 := lt_size_of_shape? h
    interval_cases id <;> cases h <;> simp [twice]
  have ordered : twice.Ordered := by
    intro id shape h
    rcases cases id shape h with ⟨rfl, rfl⟩ | ⟨rfl, rfl⟩ | ⟨rfl, rfl⟩ | ⟨rfl, rfl⟩ <;> decide
  have branches (id : ℕ) (branches) (h : twice.shape? id = some (.alternation branches)) :
      branches ≠ [] := by
    rcases cases id _ h with ⟨-, ⟨⟩⟩ | ⟨-, ⟨⟩⟩ | ⟨-, ⟨⟩⟩ | ⟨-, ⟨⟩⟩
    exact List.cons_ne_nil 2 [1]
  have plain (id target : ℕ) : twice.shape? id ≠ some (.backref target) := by
    intro h
    rcases cases id _ h with ⟨-, ⟨⟩⟩ | ⟨-, ⟨⟩⟩ | ⟨-, ⟨⟩⟩ | ⟨-, ⟨⟩⟩
  refine ⟨⟨ordered, branches, plain⟩, ?_⟩
  rw [fullMatch_program_iff_mem_language ordered branches plain
    (slotsFit_of_lt (by decide +kernel))]
  have two : ['a', 'b', 'a', 'b'] ∈ ({['a', 'b']} : Language Char) ^ 2 := by
    rw [pow_two]
    exact Language.mem_mul.2 ⟨_, rfl, _, rfl, rfl⟩
  exact Or.inl ⟨2, ⟨le_rfl, by simp⟩, two⟩

/-- A loop around a loop around an `a` and a group without a text, beside a group with the greatest
number whose slots 64 bits can still number. -/
def colliding : Tree :=
  { nodes := #[{ shape := .text ['a'] }, { shape := .text [] }, { shape := .group 1 none (some 0) },
      { shape := .concat [0, 2] }, { shape := .repetition 3 ⟨0, none⟩ false },
      { shape := .repetition 4 ⟨0, none⟩ false },
      { shape := .group 0 none (some (2 ^ 63 - 1)) }] }

/-- The numbers of the slots of its loops start again from zero.  So the inner loop has a slot of
the group in it, which keeps the position after the `a`, and there is no way out of its first round.
-/
theorem not_fullMatch_program_colliding :
    (colliding.Ordered ∧
      (∀ id branches, colliding.shape? id = some (.alternation branches) → branches ≠ []) ∧
      ∀ id target, colliding.shape? id ≠ some (.backref target)) ∧
    (colliding.program 5).fullMatch ['a'] = false ∧ ['a'] ∈ (colliding.expr 5).language := by
  have cases (id : ℕ) (shape : Shape) (h : colliding.shape? id = some shape) :
      shape.references.all (· < id) = true ∧ (∀ branches, shape ≠ .alternation branches) ∧
        ∀ target, shape ≠ .backref target := by
    have lt : id < 7 := lt_size_of_shape? h
    interval_cases id <;> cases h <;> simp [colliding, Shape.references, Shape.children]
  have ordered : colliding.Ordered := by
    intro id shape h r hr
    exact of_decide_eq_true (List.all_eq_true.1 (cases id shape h).1 r hr)
  refine ⟨⟨ordered, fun id branches h => absurd rfl ((cases id _ h).2.1 branches),
    fun id target h => (cases id _ h).2.2 target rfl⟩, by decide +kernel, ?_⟩
  have inner : ['a'] ∈ (colliding.expr 3).language :=
    Language.mem_mul.2 ⟨['a'], rfl, [], Language.mem_mul.2 ⟨[], rfl, [], rfl, rfl⟩, rfl⟩
  have once (L : Language Char) (mem : ['a'] ∈ L) : ['a'] ∈ Bounds.words ⟨0, none⟩ L :=
    ⟨1, ⟨Nat.zero_le _, by simp⟩, by rwa [pow_one]⟩
  exact once _ (once _ inner)

end Tree

end PatternSampler
