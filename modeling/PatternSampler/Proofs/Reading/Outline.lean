/-
# The outline of a phrase

Without backreferences neither the places of nodes nor the numbers of groups count for what matches.
The outline of a phrase is an expression without them.  It is the same in whatever context the
phrase is read, and its language is that of the pattern.

* `Expr.bare` : an expression without places and numbers, `Phrase.outline` : that of a phrase.
* `Compiled.exists_phrase` and `Compiled.exists_of_spells` : patterns and the outlines of their
  phrases.
-/
import PatternSampler.Proofs.Matching.Language
import PatternSampler.Proofs.Reading.Meaning

namespace PatternSampler

open Reading

namespace Expr

mutual

/-- An expression without the places of its nodes and the numbers of its groups. -/
def bare : Expr → Expr
  | text _ chars => text 0 chars
  | set _ s => set 0 s
  | concat _ parts => concat 0 (bareAll parts)
  | alternation _ branches => alternation 0 (bareAll branches)
  | repetition _ body bounds same => repetition 0 body.bare bounds same
  | group _ body _ => group 0 body.bare none
  | backref _ _ => again 0

/-- Several expressions without the places of their nodes and the numbers of their groups. -/
def bareAll : List Expr → List Expr
  | [] => []
  | e :: es => e.bare :: bareAll es

end

theorem bareAll_eq_map (es : List Expr) : bareAll es = es.map bare := by
  induction es with
  | nil => rfl
  | cons e es ih => rw [bareAll, ih, List.map_cons]

variable {e : Expr} {es : List Expr} {rank : ℕ → ℕ}

/-- What is forgotten by a skeleton is forgotten here as well. -/
theorem bare_skeleton (rank : ℕ → ℕ) (e : Expr) : (e.skeleton rank).bare = e.bare := by
  have all {es : List Expr} (each : ∀ e ∈ es, (e.skeleton rank).bare = e.bare) :
      bareAll (skeletonAll rank es) = bareAll es := by
    rw [skeletonAll_eq_map, bareAll_eq_map, bareAll_eq_map, List.map_map]
    exact List.map_congr_left each
  induction e using Expr.induct with
  | text | set => rfl
  | concat id parts ih => rw [skeleton, bare, bare, all ih]
  | alternation id branches ih => rw [skeleton, bare, bare, all ih]
  | repetition id body bounds same ih => rw [skeleton, bare, bare, ih]
  | group id body capture ih => rw [skeleton, bare, bare, ih]
  | backref id target =>
    cases target with
    | group gid body capture => cases capture <;> rfl
    | _ => rfl

theorem bare_row (es : List Expr) : (row es).bare = row (bareAll es) := by
  match es with
  | [] => rfl
  | [e] => rfl
  | e :: e' :: es => rfl

theorem bare_oneOf (e : Expr) (es : List Expr) : (oneOf e es).bare = oneOf e.bare (bareAll es) := by
  cases es <;> rfl

/-- Places and numbers do not count for the language. -/
theorem language_bare (e : Expr) : e.bare.language = e.language := by
  induction e using Expr.induct with
  | text | set | backref => rfl
  | concat id parts ih =>
    rw [bare, language, language]
    induction parts with
    | nil => rfl
    | cons e es ih' =>
      rw [bareAll, languageAll, languageAll, ih e List.mem_cons_self,
        ih' fun e mem => ih e (List.mem_cons_of_mem _ mem)]
  | alternation id branches ih =>
    rw [bare, language, language]
    induction branches with
    | nil => rfl
    | cons e es ih' =>
      rw [bareAll, languageAny, languageAny, ih e List.mem_cons_self,
        ih' fun e mem => ih e (List.mem_cons_of_mem _ mem)]
  | repetition id body bounds same ih =>
    rw [bare, language, language, ih]
    cases body with
    | text id chars => cases chars <;> rfl
    | _ => rfl
  | group id body capture ih =>
    rw [bare, language, language, ih]

/-- An expression has backreferences if it has some without its places and numbers. -/
theorem scoped_bare_iff (e : Expr) : e.bare.Scoped Set.univ ↔ e.Scoped Set.univ := by
  induction e using Expr.induct with
  | text => exact iff_of_true .text .text
  | set => exact iff_of_true .set .set
  | concat id parts ih =>
    rw [bare, bareAll_eq_map]
    constructor
    · rintro ⟨⟩
      rename_i all
      exact .concat fun e mem => (ih e mem).1 (all _ (List.mem_map_of_mem mem))
    · rintro ⟨⟩
      rename_i all
      refine .concat fun e mem => ?_
      obtain ⟨e, part, rfl⟩ := List.mem_map.1 mem
      exact (ih e part).2 (all e part)
  | alternation id branches ih =>
    rw [bare, bareAll_eq_map]
    constructor
    · rintro ⟨⟩
      rename_i some all
      exact .alternation (fun nil => some (by rw [nil]; rfl))
        fun e mem => (ih e mem).1 (all _ (List.mem_map_of_mem mem))
    · rintro ⟨⟩
      rename_i some all
      refine .alternation (fun nil => some (List.map_eq_nil_iff.1 nil)) fun e mem => ?_
      obtain ⟨e, part, rfl⟩ := List.mem_map.1 mem
      exact (ih e part).2 (all e part)
  | repetition id body bounds same ih =>
    constructor
    · rintro ⟨⟩
      exact .repetition (ih.1 ‹_›)
    · rintro ⟨⟩
      exact .repetition (ih.2 ‹_›)
  | group id body capture ih =>
    constructor
    · rintro ⟨⟩
      rename_i inner
      cases capture with
      | none => exact .group (ih.1 inner)
      | some n =>
        refine .capture ?_ (.inl (Set.mem_univ n))
        rw [Set.insert_eq_of_mem (Set.mem_univ n)]
        exact ih.1 inner
    · rintro ⟨⟩
      · exact .group (ih.2 ‹_›)
      · rename_i n inner _
        rw [Set.insert_eq_of_mem (Set.mem_univ n)] at inner
        exact .group (ih.2 inner)
  | backref id target =>
    refine iff_of_false ?_ ?_ <;> rintro ⟨⟩ <;> exact absurd (Set.mem_univ _) ‹_›

/-- A row matches its parts one after the other. -/
theorem language_row (es : List Expr) : (row es).language = languageAll es := by
  match es with
  | [] => rfl
  | [e] => rw [row, languageAll, languageAll, mul_one]
  | e :: e' :: es => rfl

/-- A choice matches one of its branches. -/
theorem language_oneOf (e : Expr) (es : List Expr) :
    (oneOf e es).language = languageAny (e :: es) := by
  cases es with
  | nil => rw [oneOf, languageAny, languageAny, add_zero]
  | cons e' es => rfl

theorem scoped_row : (row es).Scoped Set.univ ↔ ∀ e ∈ es, e.Scoped Set.univ := by
  match es with
  | [] => exact iff_of_true .text fun _ h => absurd h List.not_mem_nil
  | [e] => rw [row, List.forall_mem_singleton]
  | e :: e' :: es =>
    constructor
    · rintro ⟨⟩
      assumption
    · exact .concat

theorem scoped_oneOf :
    (oneOf e es).Scoped Set.univ ↔ e.Scoped Set.univ ∧ ∀ e' ∈ es, e'.Scoped Set.univ := by
  cases es with
  | nil => simp [oneOf]
  | cons e' es =>
    rw [← List.forall_mem_cons]
    constructor
    · rintro ⟨⟩
      assumption
    · exact .alternation (List.cons_ne_nil _ _)

end Expr

namespace Phrase

mutual

/-- The expression of a phrase without places and numbers.  What refers to a group is left open. -/
def outline : Phrase → Expr
  | atom (.text chars) => .text 0 chars
  | atom (.set s) => .set 0 s
  | atom _ => .again 0
  | group _ body => .group 0 body.outline none
  | piece _ body quantifier =>
    quantifier.elim body.outline fun q => .repetition 0 body.outline q.bounds q.sameText
  | branch pieces => .row (outlineAll pieces)
  | choice first more => .oneOf first.outline (outlineAll more)

/-- The expressions of several phrases without places and numbers. -/
def outlineAll : List Phrase → List Expr
  | [] => []
  | φ :: φs => φ.outline :: outlineAll φs

end

theorem outlineAll_eq_map (φs : List Phrase) : outlineAll φs = φs.map outline := by
  induction φs with
  | nil => rfl
  | cons φ φs ih => rw [outlineAll, ih, List.map_cons]

variable {total : ℕ} {n m : Account} {e : Expr} {es : List Expr}

/-- Phrases mean their outlines if each of them does. -/
theorem bareAll_of_meaningAll {φs : List Phrase}
    (each : ∀ φ ∈ φs, ∀ {n m : Account} {e : Expr}, φ.meaning total n = some (e, m) →
      e.bare = φ.outline) {n : Account} {es : List Expr}
    (meanings : meaningAll total φs n = some (es, m)) : Expr.bareAll es = outlineAll φs := by
  induction φs generalizing n es with
  | nil =>
    obtain ⟨rfl, rfl⟩ := meaningAll_nil_eq_some.1 meanings
    rfl
  | cons φ φs ih =>
    obtain ⟨e, m', es, head, tail, rfl⟩ := meaningAll_cons_eq_some.1 meanings
    rw [Expr.bareAll, outlineAll, each φ List.mem_cons_self head,
      ih (fun ψ mem => each ψ (List.mem_cons_of_mem φ mem)) tail]

/-- The meaning of a phrase has the outline of the phrase, whatever was read before. -/
theorem bare_of_meaning {φ : Phrase} (meaning : φ.meaning total n = some (e, m)) :
    e.bare = φ.outline := by
  induction φ using Phrase.induct generalizing n m e with
  | atom a =>
    cases a with
    | text chars | set s =>
      cases meaning
      rfl
    | backrefNumber number | backrefName name =>
      obtain ⟨number, -, ⟨⟩⟩ := Option.map_eq_some_iff.1 meaning
      rfl
    | macroName name => cases meaning
  | group kind body ih =>
    obtain ⟨e', m', inner, rfl, -⟩ := meaning_group_eq_some.1 meaning
    rw [Expr.bare, outline, ih inner]
  | piece marks body quantifier ih =>
    obtain ⟨e', inner, rfl⟩ := meaning_piece_eq_some.1 meaning
    cases quantifier with
    | none => exact ih inner
    | some q => exact congrArg (Expr.repetition 0 · q.bounds q.sameText) (ih inner)
  | branch pieces ih =>
    obtain ⟨es, inner, rfl⟩ := meaning_branch_eq_some.1 meaning
    rw [Expr.bare_row, outline, bareAll_of_meaningAll ih inner]
  | choice first more ih ih' =>
    obtain ⟨e', m', es, head, tail, rfl⟩ := meaning_choice_eq_some.1 meaning
    rw [Expr.bare_oneOf, outline, ih head, bareAll_of_meaningAll ih' tail]

/-- Phrases have a meaning together if each of them has one. -/
theorem exists_meaningAll {φs : List Phrase}
    (each : ∀ φ ∈ φs, ∀ n : Account, ∃ r, φ.meaning total n = some r) (n : Account) :
    ∃ r, meaningAll total φs n = some r := by
  induction φs generalizing n with
  | nil => exact ⟨([], n), rfl⟩
  | cons φ φs ih =>
    obtain ⟨⟨e, m⟩, head⟩ := each φ List.mem_cons_self n
    obtain ⟨⟨es, m'⟩, tail⟩ := ih (fun ψ mem => each ψ (List.mem_cons_of_mem φ mem)) m
    exact ⟨_, meaningAll_cons_eq_some.2 ⟨e, m, es, head, tail, rfl⟩⟩

/-- A phrase without backreferences always has a meaning. -/
theorem exists_meaning {φ : Phrase} (plain : φ.outline.Scoped Set.univ) (total : ℕ) (n : Account) :
    ∃ r, φ.meaning total n = some r := by
  -- every group is hidden, so no reference to one is in scope
  have open_ : ¬ (Expr.again 0).Scoped Set.univ := by
    rintro ⟨⟩
    exact absurd (Set.mem_univ 0) ‹_›
  induction φ using Phrase.induct generalizing n with
  | atom a =>
    cases a with
    | text | set => exact ⟨_, rfl⟩
    | backrefNumber | backrefName | macroName => exact absurd plain open_
  | group kind body ih =>
    cases plain with
    | group plain =>
      obtain ⟨⟨e, m⟩, inner⟩ := ih plain (n.opening kind)
      exact ⟨_, meaning_group_eq_some.2 ⟨e, m, inner, rfl, rfl⟩⟩
  | piece marks body quantifier ih =>
    have plain : body.outline.Scoped Set.univ := by
      cases quantifier with
      | none => exact plain
      | some q =>
        cases plain with
        | repetition plain => exact plain
    obtain ⟨⟨e, m⟩, inner⟩ := ih plain n
    exact ⟨_, meaning_piece_eq_some.2 ⟨e, inner, rfl⟩⟩
  | branch pieces ih =>
    rw [outline, Expr.scoped_row, outlineAll_eq_map] at plain
    obtain ⟨⟨es, m⟩, inner⟩ := exists_meaningAll
      (fun φ mem => ih φ mem (plain _ (List.mem_map_of_mem mem))) n
    exact ⟨_, meaning_branch_eq_some.2 ⟨es, inner, rfl⟩⟩
  | choice first more ih ih' =>
    rw [outline, Expr.scoped_oneOf, outlineAll_eq_map] at plain
    obtain ⟨⟨e, m⟩, head⟩ := ih plain.1 n
    obtain ⟨⟨es, m'⟩, tail⟩ := exists_meaningAll
      (fun φ mem => ih' φ mem (plain.2 _ (List.mem_map_of_mem mem))) m
    exact ⟨_, meaning_choice_eq_some.2 ⟨e, m, es, head, tail, rfl⟩⟩

end Phrase

/-! ## Patterns -/

namespace Phrase

variable {φ : Phrase} {pattern : String} {c : Compiled} {d : Draft}

/-- But for places and numbers, the expression of a pattern is the outline of its phrase. -/
theorem Finishes.bare_expr (h : φ.Finishes pattern c d) : c.expr.bare = φ.outline :=
  (Expr.bare_skeleton d.tree.rank c.expr).symm.trans (bare_of_meaning h.meaning)

/-- A phrase whose backreferences need no group is a pattern. -/
theorem Spells.exists_finishes (spells : φ.Spells expansions pattern.toList)
    (plain : φ.outline.Scoped Set.univ) : ∃ c d, φ.Finishes pattern c d := by
  obtain ⟨r, meaning⟩ := exists_meaning plain 0 ({} : Draft).account
  obtain ⟨root, d, built⟩ := exists_build_of_meaning meaning
  exact ⟨d.finish root, d, spells.finishes built⟩

end Phrase

namespace Compiled

/-- **A pattern that can be read** is a phrase, and but for places and numbers its expression is the
outline of the phrase. -/
theorem exists_phrase {pattern : String} {c : Compiled} (h : ofPattern? pattern = .ok c) :
    ∃ φ : Phrase, φ.Spells expansions pattern.toList ∧ c.expr.bare = φ.outline := by
  obtain ⟨φ, d, finishes⟩ := exists_finishes h
  exact ⟨φ, finishes.spells, finishes.bare_expr⟩

/-- **A phrase without backreferences can be read.** -/
theorem exists_of_spells {pattern : String} {φ : Phrase}
    (spells : φ.Spells expansions pattern.toList) (plain : φ.outline.Scoped Set.univ) :
    ∃ c, ofPattern? pattern = .ok c ∧ c.expr.bare = φ.outline := by
  obtain ⟨c, d, h⟩ := spells.exists_finishes plain
  exact ⟨c, h.read, h.bare_expr⟩

end Compiled

end PatternSampler
