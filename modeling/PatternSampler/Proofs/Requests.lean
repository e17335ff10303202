/-
# A pattern answers as if it had just been read

A pattern builds the program that decides matches when it is first needed, and keeps it.  Whatever
was asked of a pattern before, also of one that it was copied from, each answer is that of a pattern
that has just been read.  The only thing that shows is whether the program has been built, and that
it has exactly if some request needed it.

* `Pattern.Request` and `Pattern.Answer` : what a pattern can be asked for.
* `Pattern.reply` and `Pattern.replies` : one request, and any number of them.
* `Pattern.Request.Needs` : requests that the program is needed for.
* `Pattern.replies_eq_map` : what shows of any number of requests.
-/
import PatternSampler.Proofs.Pattern
import PatternSampler.Random.Words

namespace PatternSampler

namespace Pattern

/-- What a pattern can be asked for. -/
inductive Request (σ : Type) where
  /-- Its text. -/
  | text
  /-- Whether it has an invalidation marker. -/
  | invalidating
  /-- Whether a string matches it. -/
  | verdict (input : String)
  /-- A string of it, with some settings and a random source. -/
  | string (settings : Settings) (g : σ)
  /-- A copy, of which all that follows is asked. -/
  | copy

/-- What is answered to a request. -/
inductive Answer (σ : Type) where
  | text (source : String)
  | truth (holds : Bool)
  /-- A string, or why there is none, and the random source as it was left. -/
  | string (result : Except SampleError String) (g : σ)
  | copied

variable {σ : Type} [RandomSource σ]

/-- The answer to a request, and the pattern of which the next thing is asked. -/
def reply (p : Pattern) : Request σ → Answer σ × Pattern
  | .text => (.text p.source, p)
  | .invalidating => (.truth p.isInvalidating, p)
  | .verdict input =>
    let (matched, p) := p.fullMatch input
    (.truth matched, p)
  | .string settings g =>
    let (result, p, g) := p.generate settings g
    (.string result g, p)
  | .copy => (.copied, p.copy)

/-- The answers to several requests, and the pattern after them. -/
def replies (p : Pattern) : List (Request σ) → List (Answer σ) × Pattern
  | [] => ([], p)
  | request :: requests =>
    let (answer, p) := p.reply request
    let (answers, p) := p.replies requests
    (answer :: answers, p)

/-- Whether the program is needed: for each verdict, and for a string that is to be checked if a
node was chosen to break its rule and the string was generated. -/
def Request.Needs (c : Compiled) (source : String) : Request σ → Prop
  | .verdict _ => True
  | .string settings g => c.hasMarker = true ∧ settings.verify = true ∧
      ∃ id g₁ chars g₂, c.tree.selectInvalid c.candidates source g = .ok id g₁ ∧
        c.expr.sample settings (Route.toward c.tree id) g₁ = .ok chars g₂
  | .text | .invalidating | .copy => False

variable {source : String} {p q : Pattern}

/-! ## One request -/

theorem InUse.reply (h : InUse source p) (request : Request σ) :
    InUse source (p.reply request).2 := by
  cases request with
  | text | invalidating | copy => exact h
  | verdict input => exact .matched input h
  | string settings g => exact .generated settings g h

/-- What was asked before does not show in an answer. -/
theorem InUse.reply_congr (hp : InUse source p) (hq : InUse source q) (request : Request σ) :
    (p.reply request).1 = (q.reply request).1 := by
  cases request with
  | text => exact congrArg Answer.text (hp.invariant.1.trans hq.invariant.1.symm)
  | invalidating => exact congrArg (fun c : Compiled => Answer.truth c.hasMarker) (hp.compiled_eq hq)
  | verdict input =>
    have same : (p.fullMatch input).1 = (q.fullMatch input).1 := by
      rw [hp.fullMatch, hq.fullMatch, hp.compiled_eq hq]
    exact congrArg Answer.truth same
  | string settings g =>
    obtain ⟨result, left⟩ := hp.generate_congr hq settings g
    exact congrArg₂ Answer.string result left
  | copy => rfl

/-- A generation builds the program to check what was generated, and for nothing else. -/
theorem isLowered_generate (p : Pattern) (settings : Settings) (g : σ) :
    (p.generate settings g).2.1.isLowered = true ↔ p.isLowered = true ∨
      p.isInvalidating = true ∧ settings.verify = true ∧
        ∃ text g', p.compiled.sample p.source settings g = .ok text g' := by
  unfold generate
  rcases p.compiled.sample p.source settings g with ⟨text, g'⟩ | ⟨e, g'⟩
  · by_cases checked : p.isInvalidating = true ∧ settings.verify = true
    · have built : (p.fullMatch text).2.isLowered = true := rfl
      dsimp only
      rw [if_pos checked]
      refine iff_of_true ?_ (.inr ⟨checked.1, checked.2, text, g', rfl⟩)
      split <;> exact built
    · dsimp only
      rw [if_neg checked]
      exact (or_iff_left fun all => checked ⟨all.1, all.2.1⟩).symm
  · refine (or_iff_left ?_).symm
    rintro ⟨-, -, text, g'', ⟨⟩⟩

/-- **The program has been built after a request** exactly if it had been before or if it was needed
for the request. -/
theorem InUse.isLowered_reply (h : InUse source p) (request : Request σ) :
    (p.reply request).2.isLowered = true ↔
      p.isLowered = true ∨ request.Needs p.compiled source := by
  cases request with
  | text | invalidating | copy => exact (or_iff_left id).symm
  | verdict input => exact iff_of_true rfl (.inr trivial)
  | string settings g =>
    refine (p.isLowered_generate settings g).trans (or_congr_right ?_)
    refine and_congr_right fun marked => and_congr_right fun _ => ?_
    rw [h.invariant.1]
    simp only [Compiled.sample_eq_ok_iff marked]
    constructor
    · rintro ⟨-, g₂, id, g₁, chars, chosen, generated, -⟩
      exact ⟨id, g₁, chars, g₂, chosen, generated⟩
    · rintro ⟨id, g₁, chars, g₂, chosen, generated⟩
      exact ⟨_, g₂, id, g₁, chars, chosen, generated, rfl⟩

/-! ## Any number of requests -/

/-- What is answered from now on, and whether the program is built by then. -/
theorem InUse.replies (h : InUse source p) (hq : InUse source q) (requests : List (Request σ)) :
    (p.replies requests).1 = requests.map (fun request => (q.reply request).1) ∧
      ((p.replies requests).2.isLowered = true ↔ p.isLowered = true ∨
        ∃ request ∈ requests, request.Needs q.compiled source) := by
  induction requests generalizing p with
  | nil => exact ⟨rfl, by simp [Pattern.replies]⟩
  | cons request requests ih =>
    obtain ⟨answers, lowered⟩ := ih (h.reply request)
    have first := h.reply_congr hq request
    refine ⟨?_, ?_⟩
    · rw [Pattern.replies, List.map_cons, ← first, ← answers]
    · rw [h.isLowered_reply, h.compiled_eq hq, or_assoc] at lowered
      rw [List.exists_mem_cons_iff]
      exact lowered

/-- **Keeping the program does not show.**  Each answer to any number of requests is what the
pattern as it was read answers to this one request, with the random source that the request hands
over.  The program has been built exactly if one of the requests needed it. -/
theorem replies_eq_map (read : ofString? source = .ok p) (requests : List (Request σ)) :
    (p.replies requests).1 = requests.map (fun request => (p.reply request).1) ∧
      ((p.replies requests).2.isLowered = true ↔
        ∃ request ∈ requests, request.Needs p.compiled source) := by
  have fresh : ¬ p.isLowered = true := by
    unfold ofString? at read
    split at read
    · cases read
      exact Bool.false_ne_true
    · cases read
  obtain ⟨answers, lowered⟩ := (InUse.read read).replies (.read read) requests
  exact ⟨answers, lowered.trans (or_iff_right fresh)⟩

/-- A string that is not checked does not need the program, one that is does, and a copy keeps it.
-/
theorem replies_eq_map_checked : ∃ p, ofString? "[a-z]\\i[0-9]" = .ok p ∧
    let unchecked : List (Request WordStream) :=
      [.invalidating, .string { verify := false } (.ofWords #[0]), .copy]
    let checked : List (Request WordStream) :=
      unchecked ++ [.string {} (.ofWords #[0]), .copy]
    (p.replies checked).1 = checked.map (fun request => (p.reply request).1) ∧
      (∀ request ∈ unchecked, ¬ request.Needs p.compiled "[a-z]\\i[0-9]") ∧
      (p.replies checked).2.isLowered = true ∧
      ∃ request ∈ checked, request.Needs p.compiled "[a-z]\\i[0-9]" := by
  have run : (ofString? "[a-z]\\i[0-9]").toOption.map (fun p =>
      ((p.replies [.invalidating, .string { verify := false } (WordStream.ofWords #[0]),
          .copy]).2.isLowered,
        (p.replies [.invalidating, .string { verify := false } (WordStream.ofWords #[0]), .copy,
          .string {} (.ofWords #[0]), .copy]).2.isLowered)) = some (false, true) := by
    decide +kernel
  obtain ⟨p, read, facts⟩ := exists_read run
  obtain ⟨before, after⟩ := Prod.mk.inj facts
  refine ⟨p, read, ?_⟩
  intro unchecked checked
  have needed := replies_eq_map read checked
  have spared := replies_eq_map read unchecked
  refine ⟨needed.1, fun request mem needs => ?_, after, needed.2.1 after⟩
  have built := spared.2.2 ⟨request, mem, needs⟩
  exact Bool.false_ne_true (before.symm.trans built)

end Pattern

end PatternSampler
