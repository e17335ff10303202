/-
# Verdicts of patterns

A pattern can be asked for matches and for strings in any order.  It keeps its program once that
was needed, and the program it keeps is always its own, so what it answers does not depend on what
it was asked before.

* `Pattern.InUse` : a pattern after any number of calls.
* `Pattern.fullMatch_iff_matchesAll` : the verdict on a string.
-/
import PatternSampler.Pattern
import PatternSampler.Proofs.Matching.Language
import PatternSampler.Proofs.Reading.Building

namespace PatternSampler

/-- What the pattern answers if it is asked for a string, and the random source after that; `source`
is the text of the pattern. -/
def Compiled.outcome {σ : Type} [RandomSource σ] (c : Compiled) (source : String)
    (settings : Settings) (g : σ) : Except SampleError String × σ :=
  match c.sample source settings g with
  | .error e g => (.error e, g)
  | .ok text g =>
    if (c.hasMarker ∧ settings.verify) ∧ c.program.fullMatch text.toList then
      (.error (.stillMatches source text), g)
    else (.ok text, g)

namespace Expr

variable {σ : Type} [RandomSource σ] {e : Expr} {settings : Settings} {route : Route} {g g' : σ}

/-- What is sampled is generated without captured texts. -/
theorem sample_eq_ok_iff {chars : List Char} : e.sample settings route g = .ok chars g' ↔
    ∃ state, e.generate settings route { source := g } = .ok chars state ∧ state.source = g' := by
  unfold sample
  cases e.generate settings route { source := g } <;> simp

theorem sample_eq_error_iff {error : SampleError} :
    e.sample settings route g = .error error g' ↔
      ∃ state, e.generate settings route { source := g } = .error error state ∧
        state.source = g' := by
  unfold sample
  cases e.generate settings route { source := g } <;> simp

end Expr

namespace Compiled

variable {σ : Type} [RandomSource σ] {c : Compiled}

/-- Without a marker no node breaks its rule. -/
theorem sample_of_unmarked (unmarked : c.hasMarker = false) (source : String)
    (settings : Settings) :
    (c.sample source settings : Sampling σ String) =
      String.ofList <$> c.expr.sample settings {} := by
  unfold sample
  rw [unmarked]
  rfl

/-- With a marker a node is chosen, and what is generated is led to it. -/
theorem sample_of_marked (marked : c.hasMarker = true) (source : String) (settings : Settings) :
    (c.sample source settings : Sampling σ String) =
      c.tree.selectInvalid c.candidates source >>= fun id =>
        String.ofList <$> c.expr.sample settings (Route.toward c.tree id) := by
  unfold sample
  rw [if_pos marked, bind_map_left]
  rfl

theorem sample_eq_ok_iff (marked : c.hasMarker = true) {source : String} {settings : Settings}
    {g g' : σ} {text : String} :
    c.sample source settings g = .ok text g' ↔
      ∃ id g₁ chars, c.tree.selectInvalid c.candidates source g = .ok id g₁ ∧
        c.expr.sample settings (Route.toward c.tree id) g₁ = .ok chars g' ∧
        String.ofList chars = text := by
  simp only [sample_of_marked marked, bind_eq_ok_iff, map_eq_ok_iff, exists_and_left]

end Compiled

/-- **The slots in the program of a pattern fit**: each number of a group has a node of its own. -/
theorem Compiled.slotsFit {pattern : String} {c : Compiled}
    (read : Compiled.ofPattern? pattern = .ok c) : c.tree.SlotsFit c.root := by
  obtain ⟨φ, d, finishes⟩ := exists_finishes read
  have backs : ({} : Draft).Backs d := φ.backs_of_build finishes.built
  have numbers : d.opened + d.named.size + 0 ≤ 0 + 0 + d.tree.size := backs
  rw [← finishes.finished]
  refine Tree.slotsFit_of_le (Tree.captureCount_le fun id n own => ?_)
  have le := finishes.sound.le_of_capture?_finish own
  have size : (d.finish c.root).tree.size = d.tree.size := (d.tree.parent?_setCaptures d.numbers).1
  omega

namespace Pattern

/-- A pattern read from a text, after any number of calls. -/
inductive InUse (source : String) : Pattern → Prop
  | read {p : Pattern} : Pattern.ofString? source = .ok p → InUse source p
  | matched {p : Pattern} (input : String) : InUse source p → InUse source (p.fullMatch input).2
  | generated {p : Pattern} {σ : Type} [RandomSource σ] (settings : Settings) (g : σ) :
      InUse source p → InUse source (p.generate settings g).2.1

/-- The program that a pattern has kept, if it has, is its own. -/
def Faithful (p : Pattern) : Prop :=
  ∀ program, p.program? = some program → program = p.compiled.program

theorem Faithful.program {p : Pattern} (h : p.Faithful) : p.program = p.compiled.program := by
  rcases kept : p.program? with _ | program
  · rw [Pattern.program, kept]
    rfl
  · rw [Pattern.program, kept]
    exact h program kept

theorem Faithful.lower {p : Pattern} (h : p.Faithful) : p.lower.Faithful := by
  rintro program ⟨⟩
  exact h.program

/-- A verdict may make a pattern keep its program and changes nothing else. -/
theorem generate_pattern {σ : Type} [RandomSource σ] (p : Pattern) (settings : Settings) (g : σ) :
    (p.generate settings g).2.1 = p ∨ (p.generate settings g).2.1 = p.lower := by
  unfold generate
  split
  · exact Or.inl rfl
  · split
    · right
      dsimp only
      split <;> rfl
    · exact Or.inl rfl

/-- Without a marker a generation takes the expression of the pattern with no node to break its
rule. -/
theorem generate_of_unmarked {σ : Type} [RandomSource σ] {p : Pattern}
    (unmarked : p.isInvalidating = false) (settings : Settings) (g : σ) :
    p.generate settings g =
      match p.compiled.expr.generate settings {} { source := g } with
      | .ok chars state => (.ok (String.ofList chars), p, state.source)
      | .error e state => (.error e, p, state.source) := by
  have marker : ¬ p.compiled.hasMarker = true := Bool.eq_false_iff.1 unmarked
  have sample (g : σ) : p.compiled.sample p.source settings g =
      EStateM.map String.ofList (p.compiled.expr.sample settings {}) g :=
    congrFun (Compiled.sample_of_unmarked unmarked p.source settings) g
  unfold generate
  rw [sample, EStateM.map, Expr.sample]
  rcases p.compiled.expr.generate settings {} { source := g } with ⟨chars, state⟩ | ⟨e, state⟩
  · exact if_neg fun both => marker both.1
  · rfl

variable {source : String} {p : Pattern}

/-- What stays the same while a pattern is in use. -/
theorem InUse.invariant (h : InUse source p) :
    p.source = source ∧ Compiled.ofPattern? source = .ok p.compiled ∧ p.Faithful := by
  induction h with
  | @read p ok =>
    unfold ofString? at ok
    split at ok
    · next compiled read =>
      cases ok
      exact ⟨rfl, read, by rintro _ ⟨⟩⟩
    · cases ok
  | matched input _ ih => exact ⟨ih.1, ih.2.1, ih.2.2.lower⟩
  | @generated p σ _ settings g _ ih =>
    rcases generate_pattern p settings g with eq | eq
    · rw [eq]
      exact ih
    · rw [eq]
      exact ⟨ih.1, ih.2.1, ih.2.2.lower⟩

/-- A text is read in one way. -/
theorem InUse.compiled_eq {q : Pattern} (hp : InUse source p) (hq : InUse source q) :
    p.compiled = q.compiled :=
  Except.ok.inj (hp.invariant.2.1.symm.trans hq.invariant.2.1)

theorem InUse.wellFormed (h : InUse source p) : p.compiled.tree.WellFormed :=
  Compiled.ofPattern?_wellFormed h.invariant.2.1

theorem InUse.slotsFit (h : InUse source p) : p.compiled.tree.SlotsFit p.compiled.root :=
  Compiled.slotsFit h.invariant.2.1

theorem InUse.fullMatch (h : InUse source p) (input : String) :
    (p.fullMatch input).1 = p.compiled.program.fullMatch input.toList := by
  show p.lower.program.fullMatch input.toList = _
  rw [h.invariant.2.2.lower.program]
  rfl

/-- What a pattern answers depends on how it was read and on nothing else. -/
theorem InUse.generate_eq_outcome {σ : Type} [RandomSource σ] (h : InUse source p)
    (settings : Settings) (g : σ) :
    ((p.generate settings g).1, (p.generate settings g).2.2) =
      p.compiled.outcome source settings g := by
  have text : p.source = source := h.invariant.1
  unfold generate Compiled.outcome isInvalidating
  rw [text]
  rcases p.compiled.sample source settings g with ⟨string, g'⟩ | ⟨e, g'⟩
  · by_cases checked : p.compiled.hasMarker = true ∧ settings.verify = true
    · have verdict := h.fullMatch string
      have text' : (p.fullMatch string).2.source = source := text
      dsimp only
      rw [if_pos checked, verdict, text']
      by_cases matched : p.compiled.program.fullMatch string.toList = true
      · rw [if_pos matched, if_pos ⟨checked, matched⟩]
      · rw [if_neg matched, if_neg fun both => matched both.2]
    · dsimp only
      rw [if_neg checked, if_neg fun both => checked both.1]
  · rfl

/-- What was asked of a pattern before does not show in what it generates. -/
theorem InUse.generate_congr {σ : Type} [RandomSource σ] {q : Pattern} (hp : InUse source p)
    (hq : InUse source q) (settings : Settings) (g : σ) :
    (p.generate settings g).1 = (q.generate settings g).1 ∧
      (p.generate settings g).2.2 = (q.generate settings g).2.2 := by
  have same : ((p.generate settings g).1, (p.generate settings g).2.2) =
      ((q.generate settings g).1, (q.generate settings g).2.2) := by
    rw [hp.generate_eq_outcome, hq.generate_eq_outcome, hp.compiled_eq hq]
  exact Prod.mk.inj same

/-- If the expression has no backreferences, the verdict on a string is whether it is in its
language. -/
theorem InUse.fullMatch_iff_of_scoped (h : InUse source p)
    (plain : p.compiled.expr.Scoped Set.univ) (text : String) :
    (p.fullMatch text).1 = true ↔ text.toList ∈ p.compiled.expr.language := by
  rw [h.fullMatch]
  exact (h.wellFormed.fullMatch_program_iff h.slotsFit text.toList).trans
    (Expr.matchesAll_iff_mem_language plain)

/-- A text of which something is found out by reading it as a pattern is one that can be read. -/
theorem exists_read {α : Type} {f : Pattern → α} {a : α}
    (run : (ofString? source).toOption.map f = some a) :
    ∃ p, ofString? source = .ok p ∧ f p = a := by
  rcases read : ofString? source with _ | p
  · rw [read] at run
    cases run
  · rw [read] at run
    exact ⟨p, rfl, Option.some.inj run⟩

theorem exists_inUse {α : Type} {f : Pattern → α} {a : α}
    (run : (ofString? source).toOption.map f = some a) : ∃ p, InUse source p ∧ f p = a := by
  obtain ⟨p, read, eq⟩ := exists_read run
  exact ⟨p, .read read, eq⟩

/-- **The verdict on a string is exact.**  A whole string matches exactly if some derivation leads
from its beginning, with nothing captured, to its end. -/
theorem fullMatch_iff_matchesAll (h : InUse source p) (input : String) :
    (p.fullMatch input).1 = true ↔ p.compiled.expr.MatchesAll input.toList := by
  rw [h.fullMatch]
  exact h.wellFormed.fullMatch_program_iff h.slotsFit input.toList

/-- A group in a loop that is referred to: the text that counts is the last one. -/
theorem fullMatch_iff_matchesAll_loop : ∃ p, InUse "(?:(a|b)x)\x7b2\x7d\\1" p ∧
    p.compiled.expr.MatchesAll "axbxb".toList ∧ ¬ p.compiled.expr.MatchesAll "axbxa".toList := by
  have run : (ofString? "(?:(a|b)x)\x7b2\x7d\\1").toOption.map
      (fun p => ((p.fullMatch "axbxb").1, (p.fullMatch "axbxa").1)) = some (true, false) := by
    decide +kernel
  obtain ⟨p, h, verdicts⟩ := exists_inUse run
  have accepted : (p.fullMatch "axbxb").1 = true := congrArg Prod.fst verdicts
  have rejected : (p.fullMatch "axbxa").1 = false := congrArg Prod.snd verdicts
  refine ⟨p, h, (fullMatch_iff_matchesAll h "axbxb").1 accepted, ?_⟩
  rw [← fullMatch_iff_matchesAll h "axbxa", rejected]
  exact Bool.false_ne_true

end Pattern

end PatternSampler
