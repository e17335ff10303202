/-
# What is guaranteed of invalid strings

A string that is meant not to match is checked against the pattern.  The check draws nothing, so it
only decides between the string and an error, and its verdict is exact.

* `Spares` : an action does not fail in a certain way.
* `Expr.generate_verify` : generating does not depend on whether the string will be checked.
* `Pattern.generate_not_mem_language` : what the check makes of a generation.
-/
import PatternSampler.Proofs.Matching.Language
import PatternSampler.Proofs.Outcome
import PatternSampler.Proofs.Pattern
import PatternSampler.Random.Words

namespace PatternSampler

/-! ## Ways to fail -/

/-- An action never fails with an error. -/
def Spares {ε σ α : Type} (e : ε) (x : EStateM ε σ α) : Prop :=
  ∀ s s', x s ≠ .error e s'

namespace Spares

variable {ε σ α β : Type} {e : ε} {x : EStateM ε σ α} {f : α → EStateM ε σ β}

theorem pure (a : α) : Spares e (pure a : EStateM ε σ α) := by
  rintro s s' ⟨⟩

/-- Another error is not this one. -/
theorem throw {e' : ε} (ne : e' ≠ e) : Spares e (throw e' : EStateM ε σ α) := by
  rintro s s' ⟨⟩
  exact ne rfl

/-- Two actions one after the other never fail in this way if neither does. -/
theorem bind (first : Spares e x) (second : ∀ a, Spares e (f a)) : Spares e (x >>= f) := by
  intro s s' run
  rcases bind_eq_error_iff.1 run with run | ⟨a, s₁, -, run⟩
  · exact first s s' run
  · exact second a s₁ s' run

theorem ite {c : Prop} [Decidable c] {y : EStateM ε σ α} (yes : Spares e x) (no : Spares e y) :
    Spares e (if c then x else y) := by
  split
  · exact yes
  · exact no

end Spares

section Sampling

variable {σ : Type} [RandomSource σ] {e : SampleError}

/-- A draw does not fail. -/
theorem spares_draw (s : Span) : Spares e (draw s : Sampling σ ℕ) := by
  rintro s s' ⟨⟩

/-- A choice from a set fails only because the set is empty. -/
theorem spares_pick (ne : SampleError.emptySet ≠ e) (set : CharSet) (invert : Bool) :
    Spares e (set.pick invert : Sampling σ Char) := by
  unfold CharSet.pick
  dsimp only
  refine .ite (.throw ne) (.bind (spares_draw _) fun rank => ?_)
  split
  · exact .pure _
  · exact .throw ne

/-- A text fails to be corrupted only because a set is empty. -/
theorem spares_corruptText (ne : SampleError.emptySet ≠ e) (chars : List Char) :
    Spares e (corruptText chars : Sampling σ (List Char)) :=
  .ite (.pure _) (.bind (spares_draw _) fun _ => .bind (spares_pick ne _ _) fun _ => .pure _)

/-- The number of times is always found. -/
theorem spares_boundsDraw (b : Bounds) (slack : ℕ) (invalid reserved : Bool) :
    Spares e (b.draw slack invalid reserved : Sampling σ ℕ) := by
  unfold Bounds.draw Bounds.drawInvalid Bounds.drawValid
  exact .ite (.bind (spares_draw _) fun _ => .ite (spares_draw _) (spares_draw _))
    (.ite (.pure _) (spares_draw _))

omit [RandomSource σ] in
/-- A repetition fails only as its action does. -/
theorem spares_collect {action : Generating σ (List Char)} (h : Spares e action) (count : ℕ)
    (reversed : List Char) : Spares e (Generating.collect action count reversed) := by
  induction count generalizing reversed with
  | zero => exact .pure _
  | succ count ih => exact .bind h fun _ => ih _

omit [RandomSource σ] in
/-- A repetition fails only as what is repeated does. -/
theorem spares_generateTimes {body : Generating σ (List Char)} (h : Spares e body)
    (isText same : Bool) (count : ℕ) : Spares e (Expr.generateTimes isText same count body) :=
  .ite (.bind h fun _ => .pure _) (.ite (.pure _) (.ite (.bind h fun _ => .pure _)
    (spares_collect h count [])))

/-- Generating fails only where a set has no character to choose from. -/
theorem Expr.spares_generate (ne : SampleError.emptySet ≠ e) (settings : Settings) (route : Route)
    (f : Expr) : Spares e (f.generate settings route : Generating σ (List Char)) := by
  induction f using Expr.induct with
  | text id chars =>
    rw [generate]
    exact .ite (spares_corruptText ne chars) (.pure _)
  | set id s =>
    rw [generate]
    exact .bind (spares_pick ne _ _) fun _ => .pure _
  | concat id parts ih =>
    rw [generate]
    induction parts with
    | nil =>
      rw [generateAll]
      exact .pure _
    | cons f fs ih' =>
      rw [generateAll]
      exact .bind (ih f List.mem_cons_self) fun _ =>
        .bind (ih' fun f hf => ih f (List.mem_cons_of_mem _ hf)) fun _ => .pure _
  | alternation id branches ih =>
    have nth (n : ℕ) : Spares e (generateNth settings route branches n :
        Generating σ (List Char)) := by
      induction branches generalizing n with
      | nil =>
        rw [generateNth]
        exact .pure _
      | cons f fs ih' =>
        cases n with
        | zero =>
          rw [generateNth]
          exact ih f List.mem_cons_self
        | succ n =>
          rw [generateNth]
          exact ih' (fun f hf => ih f (List.mem_cons_of_mem _ hf)) n
    rw [generate]
    split
    · exact nth _
    · exact .bind (spares_draw _) nth
  | repetition id body bounds same ih =>
    rw [generate]
    exact .bind (spares_boundsDraw _ _ _ _) fun _ => spares_generateTimes ih _ _ _
  | group id body capture ih =>
    rw [generate]
    refine .bind ih fun _ => ?_
    rintro g g' ⟨⟩
  | backref id target ih =>
    rw [generate]
    split
    · refine .bind (.bind ?_ fun _ => .pure _) fun found => ?_
      · rintro g g' ⟨⟩
      · split
        · exact .pure _
        · exact ih
    · exact ih

end Sampling

/-! ## Settings -/

variable {σ : Type} [RandomSource σ]

/-- Generating does not depend on whether the string will be checked. -/
theorem Expr.generate_verify (settings : Settings) (route : Route) (check : Bool) (f : Expr) :
    (f.generate { settings with verify := check } route : Generating σ (List Char)) =
      f.generate settings route := by
  induction f using Expr.induct with
  | text id chars => rw [generate, generate]
  | set id s => rw [generate, generate]
  | concat id parts ih =>
    rw [generate, generate]
    induction parts with
    | nil => rw [generateAll, generateAll]
    | cons f fs ih' =>
      rw [generateAll, generateAll, ih f List.mem_cons_self,
        ih' fun f hf => ih f (List.mem_cons_of_mem _ hf)]
  | alternation id branches ih =>
    have nth (n : ℕ) : (generateNth { settings with verify := check } route branches n :
        Generating σ (List Char)) = generateNth settings route branches n := by
      induction branches generalizing n with
      | nil => rw [generateNth, generateNth]
      | cons f fs ih' =>
        cases n with
        | zero => rw [generateNth, generateNth, ih f List.mem_cons_self]
        | succ n =>
          rw [generateNth, generateNth, ih' fun f hf => ih f (List.mem_cons_of_mem _ hf)]
    rw [generate, generate]
    simp only [nth]
  | repetition id body bounds same ih => rw [generate, generate, ih]
  | group id body capture ih => rw [generate, generate, ih]
  | backref id target ih => rw [generate, generate, ih]

/-- The check of the result does not count for what is sampled. -/
theorem Compiled.sample_verify (c : Compiled) (source : String) (settings : Settings)
    (check : Bool) :
    (c.sample source { settings with verify := check } : Sampling σ String) =
      c.sample source settings := by
  have expr (route : Route) :
      (c.expr.sample { settings with verify := check } route : Sampling σ (List Char)) =
        c.expr.sample settings route := by
    unfold Expr.sample
    rw [Expr.generate_verify]
  unfold sample
  simp only [expr]

/-- A string is never refused before it has been generated. -/
theorem Compiled.spares_sample (c : Compiled) (source : String) (settings : Settings)
    (pattern text : String) :
    Spares (.stillMatches pattern text) (c.sample source settings : Sampling σ String) := by
  have expr (route : Route) : Spares (.stillMatches pattern text)
      (c.expr.sample settings route : Sampling σ (List Char)) := by
    intro g g' run
    have spares : Spares (.stillMatches pattern text)
        (c.expr.generate settings route : Generating σ (List Char)) :=
      Expr.spares_generate (by simp) settings route c.expr
    obtain ⟨state, failed, -⟩ := Expr.sample_eq_error_iff.1 run
    exact spares _ _ failed
  have select : Spares (.stillMatches pattern text)
      (c.tree.selectInvalid c.candidates source : Sampling σ ℕ) := by
    unfold Tree.selectInvalid
    dsimp only
    exact .ite (.throw (by simp)) (.bind (spares_draw _) fun _ => .pure _)
  have behind (route : Route) : Spares (.stillMatches pattern text) (do
      return String.ofList (← c.expr.sample settings route) : Sampling σ String) :=
    .bind (expr route) fun _ => .pure _
  unfold sample
  dsimp only
  refine .ite (.bind ?_ behind) (.bind (.pure _) behind)
  rw [map_eq_pure_bind]
  exact .bind select fun _ => .pure _

/-! ## The guarantee -/

namespace Pattern

variable {source : String} {p : Pattern}

/-- Without a check a generation is what was sampled. -/
theorem generate_unchecked (p : Pattern) (settings : Settings) (g : σ) :
    p.generate { settings with verify := false } g =
      match p.compiled.sample p.source settings g with
      | .error e g => (.error e, p, g)
      | .ok text g => (.ok text, p, g) := by
  unfold generate
  rw [Compiled.sample_verify]
  generalize p.compiled.sample p.source settings g = result
  cases result with
  | ok text g' => exact if_neg fun both => Bool.false_ne_true both.2
  | error e g' => rfl

/-- With a check a generation is what was sampled, unless the verdict on it is that it matches. -/
theorem generate_checked (p : Pattern) (marked : p.isInvalidating = true) (settings : Settings)
    (g : σ) :
    p.generate { settings with verify := true } g =
      match p.compiled.sample p.source settings g with
      | .error e g => (.error e, p, g)
      | .ok text g =>
        if (p.fullMatch text).1 then (.error (.stillMatches p.source text), p.lower, g)
        else (.ok text, p.lower, g) := by
  unfold generate
  rw [Compiled.sample_verify]
  generalize p.compiled.sample p.source settings g = result
  cases result with
  | ok text g' => exact if_pos ⟨marked, rfl⟩
  | error e g' => rfl

/-- Without backreferences the verdict on a string is whether it is in the language of the tree. -/
theorem InUse.fullMatch_iff_mem_language (h : InUse source p)
    (plain : ∀ id target, p.compiled.tree.shape? id ≠ some (.backref target)) (text : String) :
    (p.fullMatch text).1 = true ↔ text.toList ∈ p.compiled.expr.language := by
  have well := h.wellFormed
  exact h.fullMatch_iff_of_scoped
    (Tree.scoped_univ well.ordered well.branches plain p.compiled.root) text

/-- **Invalid strings do not match.**  The check leaves the random source as it is.  It turns a
string into an error exactly if the string is in the language of the tree, and changes nothing
else; so no string of the language comes through. -/
theorem generate_not_mem_language (h : InUse source p) (marked : p.isInvalidating = true)
    (plain : ∀ id target, p.compiled.tree.shape? id ≠ some (.backref target))
    (settings : Settings) (g : σ) :
    let checked := p.generate { settings with verify := true } g
    let unchecked := p.generate { settings with verify := false } g
    checked.2.2 = unchecked.2.2 ∧
      (∀ text, checked.1 = .error (.stillMatches source text) ↔
        unchecked.1 = .ok text ∧ text.toList ∈ p.compiled.expr.language) ∧
      ((∀ text, unchecked.1 = .ok text → text.toList ∉ p.compiled.expr.language) →
        checked.1 = unchecked.1) ∧
      ∀ text, checked.1 = .ok text → text.toList ∉ p.compiled.expr.language := by
  intro checked unchecked
  have checked_eq : checked = _ := generate_checked p marked settings g
  have unchecked_eq : unchecked = _ := generate_unchecked p settings g
  rw [h.invariant.1] at checked_eq unchecked_eq
  have verdict := h.fullMatch_iff_mem_language plain
  rcases run : p.compiled.sample source settings g with ⟨text, g'⟩ | ⟨e, g'⟩
  · rw [run] at checked_eq unchecked_eq
    dsimp only at checked_eq unchecked_eq
    rw [unchecked_eq]
    -- a string was sampled; the verdict on it is whether it is in the language
    by_cases mem : text.toList ∈ p.compiled.expr.language
    · rw [if_pos ((verdict text).2 mem)] at checked_eq
      rw [checked_eq]
      refine ⟨rfl, fun text' => ?_, fun outside => absurd mem (outside text rfl), ?_⟩
      · constructor
        · rintro ⟨⟩
          exact ⟨rfl, mem⟩
        · rintro ⟨⟨⟩, -⟩
          rfl
      · rintro text' ⟨⟩
    · rw [if_neg fun accepted => mem ((verdict text).1 accepted)] at checked_eq
      rw [checked_eq]
      refine ⟨rfl, fun text' => ?_, fun _ => rfl, ?_⟩
      · constructor
        · rintro ⟨⟩
        · rintro ⟨⟨⟩, mem'⟩
          exact absurd mem' mem
      · rintro text' ⟨⟩
        exact mem
  -- sampling failed, and not with the error that only the check gives
  · rw [run] at checked_eq unchecked_eq
    rw [checked_eq, unchecked_eq]
    refine ⟨rfl, fun text => ?_, fun _ => rfl, ?_⟩
    · constructor
      · rintro ⟨⟩
        exact absurd run (p.compiled.spares_sample source settings source text g g')
      · rintro ⟨⟨⟩, -⟩
    · rintro text ⟨⟩

/-- One optional character too many is as good as the next optional character. -/
theorem generate_not_mem_language_optional : ∃ p, InUse "a\\i?a?" p ∧
    (p.generate { slack := 1, verify := true } (WordStream.ofWords #[0])).1 =
      .error (.stillMatches "a\\i?a?" "aa") ∧ "aa".toList ∈ p.compiled.expr.language := by
  have run : (ofString? "a\\i?a?").toOption.map (fun p => (p.isInvalidating,
      p.compiled.tree.nodes.all (fun node => node.shape.references = node.shape.children),
      (p.generate { slack := 1, verify := true } (WordStream.ofWords #[0])).1)) =
        some (true, true, .error (.stillMatches "a\\i?a?" "aa")) := by
    decide +kernel
  obtain ⟨p, h, all⟩ := exists_inUse run
  have marked : p.isInvalidating = true := congrArg (fun r => r.1) all
  have own : p.compiled.tree.nodes.all
      (fun node => node.shape.references = node.shape.children) = true :=
    congrArg (fun r => r.2.1) all
  have result : (p.generate { slack := 1, verify := true } (WordStream.ofWords #[0])).1 =
      .error (.stillMatches "a\\i?a?" "aa") := congrArg (fun r => r.2.2) all
  have plain (id target : ℕ) : p.compiled.tree.shape? id ≠ some (.backref target) := by
    intro look
    have none := Tree.shape_of_all (f := fun shape => shape.references = shape.children) own look
    cases of_decide_eq_true none
  have guarantee := generate_not_mem_language h marked plain { slack := 1 }
    (WordStream.ofWords #[0])
  exact ⟨p, h, result, ((guarantee.2.1 "aa").1 result).2⟩

end Pattern

end PatternSampler
