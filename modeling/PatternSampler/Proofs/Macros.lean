/-
# Macros are hygienic

A macro means the same as what it stands for, put in parentheses that do not capture.  If macros of
a pattern are written out in this way, the pattern can still be read and has the same program, and
the same strings are generated of it from the same random numbers.  Also where they are meant not to
match, the same node is chosen to break its rule, though it has another place.

* `Compiled.Enclosed` : patterns that differ in groups that do not capture.
* `Pattern.exists_of_writesOut` : what becomes of a pattern.
-/
import PatternSampler.Proofs.Generation.Enclosing
import PatternSampler.Proofs.Generation.Failure
import PatternSampler.Proofs.Program.Enclosing

namespace PatternSampler

open Reading PatternSampler.Tree

/-! ## Errors -/

/-- The same error, told of another pattern. -/
def SampleError.toldOf (pattern : String) : SampleError → SampleError
  | unreadable position cause => unreadable position cause
  | nothingToInvalidate _ => nothingToInvalidate pattern
  | emptySet => emptySet
  | stillMatches _ generated => stillMatches pattern generated

/-- What is done to errors is done to those of both actions of a sequence. -/
theorem adaptExcept_bind {ε σ α β : Type} (f : ε → ε) (x : EStateM ε σ α) (k : α → EStateM ε σ β) :
    EStateM.adaptExcept f (x >>= k) =
      (EStateM.adaptExcept f x >>= fun a => EStateM.adaptExcept f (k a)) := by
  funext s
  show EStateM.adaptExcept f (EStateM.bind x k) s = EStateM.bind (EStateM.adaptExcept f x) _ s
  unfold EStateM.adaptExcept EStateM.bind
  dsimp only
  cases x s <;> rfl

/-! ## Choosing a node -/

namespace Tree.Enclosed

variable {σ : Type} [RandomSource σ] {s : Finset ℕ} {t t' : Tree} {candidates candidates' : List ℕ}

/-- The same nodes are eligible, in the same order. -/
theorem eligible (h : t.Enclosed s t')
    (marked : ∀ id, inner s id ∈ candidates' ↔ id ∈ candidates) :
    t'.eligible candidates' = (t.eligible candidates).map (inner s) := by
  have sorted := (t.pairwise_eligible candidates).map (inner s) fun _ _ lt => inner_strictMono s lt
  refine (t'.pairwise_eligible candidates').eq_of_mem_iff sorted fun place => ?_
  rw [mem_eligible, List.mem_map]
  constructor
  · rintro ⟨mem, own⟩
    obtain ⟨id, -, rfl⟩ := h.exists_eq_inner own
    rw [h.isInvalidatable_inner] at own
    exact ⟨id, mem_eligible.2 ⟨(marked id).1 mem, own⟩, rfl⟩
  · rintro ⟨id, mem, rfl⟩
    obtain ⟨mem, own⟩ := mem_eligible.1 mem
    exact ⟨(marked id).2 mem, (h.isInvalidatable_inner id).trans own⟩

/-- The same node is chosen. -/
theorem selectInvalid (h : t.Enclosed s t')
    (marked : ∀ id, inner s id ∈ candidates' ↔ id ∈ candidates) (pattern pattern' : String) :
    (t'.selectInvalid candidates' pattern' : Sampling σ ℕ) = inner s <$>
      EStateM.adaptExcept (SampleError.toldOf pattern') (t.selectInvalid candidates pattern) := by
  funext g
  unfold Tree.selectInvalid
  dsimp only
  rw [h.eligible marked]
  cases t.eligible candidates with
  | nil => rfl
  | cons first others =>
    have chosen (rank : ℕ) : ((first :: others).map (inner s)).getD rank 0 =
        inner s ((first :: others).getD rank 0) := List.getD_map _ 0 (inner s)
    show EStateM.Result.ok (List.getD _ _ 0) _ = .ok (inner s (List.getD _ _ 0)) _
    rw [chosen, List.length_map]

end Tree.Enclosed

/-! ## Patterns that have been read -/

/-- A pattern is another one with the nodes of `s` in groups. -/
structure Compiled.Enclosed (s : Finset ℕ) (c c' : Compiled) : Prop where
  tree : c.tree.Enclosed s c'.tree
  root : c'.root = outer s c.root
  hasMarker : c'.hasMarker = c.hasMarker
  marked : ∀ id, inner s id ∈ c'.candidates ↔ id ∈ c.candidates
  program : c'.program = c.program

/-- **A pattern in which macros are written out can be read**, and it is the pattern before with
some nodes in groups. -/
theorem Compiled.exists_enclosed {source source' : String} {c : Compiled}
    (read : ofPattern? source = .ok c) (out : WritesOut source source.toList source'.toList) :
    ∃ s c', ofPattern? source' = .ok c' ∧ c.Enclosed s c' := by
  obtain ⟨first, more, d₁, d₂, whole⟩ := Call.exists_finishes read
  obtain ⟨φ, d, finishes⟩ := exists_finishes read
  obtain ⟨φ', spells, encloses⟩ :=
    finishes.spells.expands (out.expands whole.ends List.suffix_rfl)
  obtain ⟨s, d', finishes', enclosed⟩ := finishes.exists_enclosed encloses spells
  have finished := finishes.finished
  refine ⟨s, _, finishes'.read, ?_, rfl, ?_, fun id => ?_,
    finishes.program_enclosed finishes' enclosed rfl⟩
  · rw [← finished]
    exact enclosed.finish c.root _
  · rw [← finished]
    exact enclosed.hasMarker
  · rw [← finished]
    show inner s id ∈ d'.candidates.toList ↔ id ∈ d.candidates.toList
    rw [Array.mem_toList_iff, Array.mem_toList_iff]
    exact enclosed.marked id

namespace Expr

variable {σ : Type} [RandomSource σ] {s : Finset ℕ} {e e' : Expr} {settings : Settings}
  {route route' : Route}

/-- A string that starts without captured texts. -/
theorem sample_eq_of_mirrored (pattern : String) (h : Mirrored s
      (e.generate settings route : Generating σ (List Char)) (e'.generate settings route')) :
    (e'.sample settings route' : Sampling σ (List Char)) =
      EStateM.adaptExcept (SampleError.toldOf pattern) (e.sample settings route) := by
  funext g
  have ends := h { source := g } { source := g } ⟨rfl, fun id => by simp⟩
  unfold sample EStateM.adaptExcept
  dsimp only
  generalize e.generate settings route { source := g } = end₁ at ends
  generalize e'.generate settings route' { source := g } = end₂ at ends
  cases ends with
  | ok moved => exact congrArg _ moved.source
  | error moved => exact congrArg _ moved.source

end Expr

namespace Compiled

variable {σ : Type} [RandomSource σ] {s : Finset ℕ} {c c' : Compiled} {source source' : String}

/-- **The same strings are sampled**, and an error is the same one, told of the other pattern. -/
theorem Enclosed.sample (h : c.Enclosed s c') (read : ofPattern? source = .ok c)
    (read' : ofPattern? source' = .ok c') (settings : Settings) :
    (c'.sample source' settings : Sampling σ String) =
      EStateM.adaptExcept (SampleError.toldOf source') (c.sample source settings) := by
  have ordered := (ofPattern?_wellFormed read).ordered
  have ordered' := (ofPattern?_wellFormed read').ordered
  have linked := ofPattern?_linked read
  have linked' := ofPattern?_linked read'
  have lt : c.root < c.tree.size := (ofPattern?_size read).ge
  have sampled {route route' : Route} (moved : route.Moved s route') :
      (c'.expr.sample settings route' : Sampling σ (List Char)) =
        EStateM.adaptExcept (SampleError.toldOf source') (c.expr.sample settings route) := by
    have node : Mirrored s (c.expr.generate settings route : Generating σ (List Char))
        (c'.expr.generate settings route') := by
      unfold expr
      rw [h.root]
      exact h.tree.generate ordered ordered' moved c.root lt
    exact Expr.sample_eq_of_mirrored source' node
  -- what is done with a route, whatever it is
  have behind {route route' : Route} (moved : route.Moved s route') :
      (do return String.ofList (← c'.expr.sample settings route') : Sampling σ String) =
        EStateM.adaptExcept (SampleError.toldOf source') do
          return String.ofList (← c.expr.sample settings route) := by
    rw [sampled moved, adaptExcept_bind]
    rfl
  unfold Compiled.sample
  rw [h.hasMarker]
  cases c.hasMarker with
  | false => exact behind (.empty s)
  | true =>
    rw [if_pos rfl, if_pos rfl, h.tree.selectInvalid h.marked source, bind_map_left, bind_map_left,
      bind_map_left, adaptExcept_bind]
    refine congrArg (_ >>= ·) (funext fun id => ?_)
    exact behind (.toward h.tree ordered linked ordered' linked' id)

/-- **The same strings are answered**, checked or not. -/
theorem Enclosed.outcome (h : c.Enclosed s c') (read : ofPattern? source = .ok c)
    (read' : ofPattern? source' = .ok c') (settings : Settings) (g : σ) :
    c'.outcome source' settings g =
      (c.outcome source settings g).map (Except.mapError (SampleError.toldOf source')) id := by
  unfold Compiled.outcome
  rw [h.sample read read', h.hasMarker, h.program]
  unfold EStateM.adaptExcept
  rcases c.sample source settings g with ⟨text, g'⟩ | ⟨e, g'⟩
  · dsimp only
    split <;> rfl
  · rfl

end Compiled

/-! ## Patterns in use -/

namespace Pattern

variable {σ : Type} [RandomSource σ] {s : Finset ℕ} {source source' : String} {p p' : Pattern}

/-- Generates one string after the other, each with settings of its own. -/
def generateEach (p : Pattern) : List Settings → σ → List (Except SampleError String) × σ
  | [], g => ([], g)
  | settings :: more, g =>
    let next := p.generate settings g
    let others := next.2.1.generateEach more next.2.2
    (next.1 :: others.1, others.2)

/-- A generation leaves the pattern as it was read. -/
theorem compiled_generate (p : Pattern) (settings : Settings) (g : σ) :
    (p.generate settings g).2.1.compiled = p.compiled := by
  rcases generate_pattern p settings g with eq | eq <;> rw [eq]
  rfl

/-- The same string is generated, or it fails in the same way. -/
theorem InUse.generate_of_enclosed (h : InUse source p) (h' : InUse source' p')
    (enclosed : p.compiled.Enclosed s p'.compiled) (settings : Settings) (g : σ) :
    (p'.generate settings g).1 = (p.generate settings g).1.mapError (SampleError.toldOf source') ∧
      (p'.generate settings g).2.2 = (p.generate settings g).2.2 := by
  have same := enclosed.outcome h.invariant.2.1 h'.invariant.2.1 settings g
  rw [← h.generate_eq_outcome, ← h'.generate_eq_outcome] at same
  exact Prod.mk.inj same

/-- What is asked of a pattern leaves it in groups as it was. -/
theorem InUse.generateEach_of_enclosed (h : InUse source p) (h' : InUse source' p')
    (enclosed : p.compiled.Enclosed s p'.compiled) (requests : List Settings) (g : σ) :
    p'.generateEach requests g =
      (p.generateEach requests g).map (List.map (Except.mapError (SampleError.toldOf source'))) id := by
  induction requests generalizing p p' g with
  | nil => rfl
  | cons settings more ih =>
    obtain ⟨result, left⟩ := h.generate_of_enclosed h' enclosed settings g
    have compiled : (p.generate settings g).2.1.compiled.Enclosed s
        (p'.generate settings g).2.1.compiled := by
      rw [compiled_generate, compiled_generate]
      exact enclosed
    have others := ih (.generated settings g h) (.generated settings g h') compiled
      (p.generate settings g).2.2
    rw [generateEach, generateEach, result, left, others]
    rfl

/-- **Macros are hygienic.**  A pattern in which macros are written out can be read and has the same
program.  The same nodes are eligible, in their new places, and the same one of them is chosen.
Whatever is asked for, the same strings are generated from the same random numbers, and where one
cannot be generated, it is for the same reason. -/
theorem exists_of_writesOut (read : ofString? source = .ok p)
    (out : WritesOut source source.toList source'.toList) :
    ∃ (p' : Pattern) (s : Finset ℕ), ofString? source' = .ok p' ∧ p'.program = p.program ∧
      p'.isInvalidating = p.isInvalidating ∧ p.compiled.tree.Enclosed s p'.compiled.tree ∧
      p'.compiled.tree.eligible p'.compiled.candidates =
        (p.compiled.tree.eligible p.compiled.candidates).map (inner s) ∧
      ∀ {σ : Type} [RandomSource σ],
        (p'.compiled.tree.selectInvalid p'.compiled.candidates source' : Sampling σ ℕ) =
          inner s <$> EStateM.adaptExcept (SampleError.toldOf source')
            (p.compiled.tree.selectInvalid p.compiled.candidates source) ∧
        ∀ (requests : List Settings) (g : σ), p'.generateEach requests g =
          (p.generateEach requests g).map
            (List.map (Except.mapError (SampleError.toldOf source'))) id := by
  have h : InUse source p := .read read
  obtain ⟨s, c', readable, enclosed⟩ := Compiled.exists_enclosed h.invariant.2.1 out
  have read' : ofString? source' = .ok { source := source', compiled := c' } := by
    unfold ofString?
    rw [readable]
  have h' : InUse source' _ := .read read'
  refine ⟨_, s, read', ?_, enclosed.hasMarker, enclosed.tree,
    enclosed.tree.eligible enclosed.marked, fun {σ} _ => ⟨?_, fun requests g => ?_⟩⟩
  · rw [h.invariant.2.2.program, h'.invariant.2.2.program]
    exact enclosed.program
  · exact enclosed.tree.selectInvalid enclosed.marked source source'
  · exact h.generateEach_of_enclosed h' enclosed requests g

/-- The repetition of a macro is marked; a group that is referred to holds another macro. -/
theorem exists_of_writesOut_repeated :
    ∃ p p', ofString? "[:digit:]\\i\x7b2\x7d([:alpha:])\\1" = .ok p ∧
      ofString? "(?:[0-9])\\i\x7b2\x7d((?:[a-zA-Z]))\\1" = .ok p' ∧ p'.program = p.program ∧
      p.compiled.tree.eligible p.compiled.candidates = [1] ∧
      p'.compiled.tree.eligible p'.compiled.candidates = [2] ∧
      (p'.generateEach [{}, { slack := 1 }]
        (WordStream.ofWords #[0x5000000000000000, 0x7123456789ABCDEF])).1 =
          [.ok "505AA", .ok "0bb"] := by
  have run : (ofString? "[:digit:]\\i\x7b2\x7d([:alpha:])\\1").toOption.map (fun p =>
      (p.compiled.tree.eligible p.compiled.candidates, (p.generateEach [{}, { slack := 1 }]
        (WordStream.ofWords #[0x5000000000000000, 0x7123456789ABCDEF])).1)) =
          some ([1], [.ok "505AA", .ok "0bb"]) := by
    decide +kernel
  have run' : (ofString? "(?:[0-9])\\i\x7b2\x7d((?:[a-zA-Z]))\\1").toOption.map (fun p =>
      p.compiled.tree.eligible p.compiled.candidates) = some [2] := by
    decide +kernel
  have text : "[:digit:]\\i\x7b2\x7d([:alpha:])\\1".toList = macroText "digit" ++
      (['\\', 'i', '\x7b', '2', '\x7d', '('] ++ (macroText "alpha" ++ [')', '\\', '1'])) := by
    decide +kernel
  have text' : "(?:[0-9])\\i\x7b2\x7d((?:[a-zA-Z]))\\1".toList = enclosedText "[0-9]" ++
      (['\\', 'i', '\x7b', '2', '\x7d', '('] ++ (enclosedText "[a-zA-Z]" ++ [')', '\\', '1'])) := by
    decide +kernel
  have out : WritesOut "[:digit:]\\i\x7b2\x7d([:alpha:])\\1"
      "[:digit:]\\i\x7b2\x7d([:alpha:])\\1".toList
      "(?:[0-9])\\i\x7b2\x7d((?:[a-zA-Z]))\\1".toList := by
    rw [text, text']
    apply WritesOut.expand (readsMacro_of_deeper 3 (by decide +kernel)) (by decide)
    apply WritesOut.append
    apply WritesOut.expand (readsMacro_of_deeper 8 (by decide +kernel)) (by decide)
    exact .append [')', '\\', '1'] .nil
  obtain ⟨p, read, values⟩ := exists_read run
  obtain ⟨p', s, read', program, -, -, -, same⟩ := exists_of_writesOut read out
  rw [read', Except.toOption, Option.map_some, Option.some_inj] at run'
  obtain ⟨eligible, strings⟩ := Prod.mk.inj values
  refine ⟨p, p', read, read', program, eligible, run', ?_⟩
  rw [same.2, Prod.map_fst, strings]
  rfl

end Pattern

end PatternSampler
