/-
# What a session remembers does not show

A session reads each pattern once and keeps it, with the program that it may have built for it.
Each call nevertheless answers what a generation that reads the pattern anew would answer, and
leaves the random source where that would leave it.

* `Session.Tracks` : the patterns that a session keeps after some calls.
* `Session.Tracks.next` : what one call does to it.
* `Session.answers_eq_generateEach` : any number of calls.
-/
import PatternSampler.Proofs.Pattern
import PatternSampler.Session

namespace PatternSampler

variable {σ : Type} [RandomSource σ]

/-- Generates one string of each of several patterns, reading each of them anew. -/
def generateEach (settings : Settings) : List String → σ → List (Except SampleError String) × σ
  | [], g => ([], g)
  | text :: texts, g =>
    let (answer, g) := generateOnce text settings g
    let (answers, g) := generateEach settings texts g
    (answer :: answers, g)

/-- The different texts among some that can be read as patterns. -/
def readable (texts : List String) : Finset String :=
  (texts.filter fun text => (Pattern.ofString? text).isOk).toFinset

theorem mem_readable {texts : List String} {text : String} :
    text ∈ readable texts ↔ text ∈ texts ∧ ∃ p, Pattern.ofString? text = .ok p := by
  have isOk : (Pattern.ofString? text).isOk = true ↔ ∃ p, Pattern.ofString? text = .ok p := by
    rcases Pattern.ofString? text with _ | p <;> simp [Except.isOk, Except.toBool]
  rw [readable, List.mem_toFinset, List.mem_filter, isOk]

/-- One more text counts if it can be read. -/
theorem readable_concat (texts : List String) (text : String) :
    readable (texts ++ [text]) =
      if (Pattern.ofString? text).isOk then insert text (readable texts) else readable texts := by
  rw [readable, List.filter_append, List.toFinset_append]
  split
  · next ok =>
    rw [List.filter_singleton, ok, cond_true, List.toFinset_cons, List.toFinset_nil,
      Finset.union_insert, Finset.union_empty]
    rfl
  · next failed =>
    rw [List.filter_singleton, Bool.eq_false_iff.2 failed, cond_false, List.toFinset_nil,
      Finset.union_empty]
    rfl

namespace Session

/-- Several calls: what they answer, and the session after them. -/
def answers (s : Session σ) : List String → List (Except SampleError String) × Session σ
  | [] => ([], s)
  | text :: texts =>
    let (answer, s) := s.next text
    let (others, s) := s.answers texts
    (answer :: others, s)

/-- What a session keeps after calls with some texts: of each that can be read its pattern, and
nothing else. -/
structure Tracks (s : Session σ) (texts : List String) : Prop where
  inUse : ∀ text p, s.cache[text]? = some p → Pattern.InUse text p
  kept : ∀ text, text ∈ s.cache ↔ text ∈ readable texts
  size : s.cached = (readable texts).card

variable {s : Session σ} {texts : List String} {text : String}

omit [RandomSource σ] in
/-- A session that has not been called keeps nothing. -/
theorem tracks_nil (source : σ) (settings : Settings) :
    ({ source, settings } : Session σ).Tracks [] where
  inUse := by simp
  kept := by simp [readable]
  size := by simp [readable, cached]

omit [RandomSource σ] in
/-- The pattern that a call works with is one in use, and there is one if the text can be read. -/
theorem Tracks.inUse_of_pattern? (h : s.Tracks texts) {p : Pattern}
    (found : s.pattern? text = .ok p) : Pattern.InUse text p := by
  unfold pattern? at found
  split at found
  · next q look =>
    cases found
    exact h.inUse text p look
  · exact .read found

omit [RandomSource σ] in
theorem Tracks.pattern?_eq_error (h : s.Tracks texts) {e : SampleError} :
    s.pattern? text = .error e ↔ Pattern.ofString? text = .error e := by
  unfold pattern?
  split
  · next p look =>
    have mem : text ∈ s.cache := (Std.HashMap.getElem?_eq_some_iff.1 look).1
    obtain ⟨-, q, read⟩ := mem_readable.1 ((h.kept text).1 mem)
    rw [read]
    exact iff_of_false (by rintro ⟨⟩) (by rintro ⟨⟩)
  · exact Iff.rfl

/-- A text that cannot be read leaves the session as it is. -/
theorem Tracks.next_of_error (h : s.Tracks texts) {e : SampleError}
    (failed : Pattern.ofString? text = .error e) : s.next text = (.error e, s) := by
  unfold Session.next
  rw [h.pattern?_eq_error.2 failed]

/-- **A call answers what reading the pattern anew would answer.** -/
theorem Tracks.next_eq (h : s.Tracks texts) (text : String) :
    ((s.next text).1, (s.next text).2.source) = generateOnce text s.settings s.source := by
  unfold generateOnce
  rcases read : Pattern.ofString? text with e | q
  · rw [h.next_of_error read]
  · rcases found : s.pattern? text with e | p
    · rw [h.pattern?_eq_error.1 found] at read
      cases read
    · obtain ⟨answer, source⟩ :=
        (h.inUse_of_pattern? found).generate_congr (.read read) s.settings s.source
      unfold Session.next
      rw [found]
      exact Prod.ext answer source

theorem settings_next (s : Session σ) (text : String) : (s.next text).2.settings = s.settings := by
  unfold Session.next
  split <;> rfl

/-- **A call keeps the pattern if it can be read**, also if generating fails. -/
theorem Tracks.next (h : s.Tracks texts) (text : String) :
    (s.next text).2.Tracks (texts ++ [text]) := by
  rcases read : Pattern.ofString? text with e | q
  · have same : readable (texts ++ [text]) = readable texts := by
      rw [readable_concat, read]
      rfl
    rw [h.next_of_error read]
    exact ⟨h.inUse, same ▸ h.kept, same ▸ h.size⟩
  · rcases found : s.pattern? text with e | p
    · rw [h.pattern?_eq_error.1 found] at read
      cases read
    have more : readable (texts ++ [text]) = insert text (readable texts) := by
      rw [readable_concat, read]
      rfl
    have inUse := h.inUse_of_pattern? found
    have cache : (s.next text).2.cache =
        s.cache.insert text (p.generate s.settings s.source).2.1 := by
      unfold Session.next
      rw [found]
    refine ⟨fun other r look => ?_, fun other => ?_, ?_⟩
    · rw [cache, Std.HashMap.getElem?_insert] at look
      split at look
      · next eq =>
        obtain rfl : text = other := by simpa using eq
        cases look
        exact .generated s.settings s.source inUse
      · exact h.inUse other r look
    · rw [cache, more, Std.HashMap.mem_insert, Finset.mem_insert, h.kept other, beq_iff_eq, eq_comm]
    · rw [cached, cache, more, Std.HashMap.size_insert, Finset.card_insert_eq_ite]
      simp only [h.kept text]
      split
      · exact h.size
      · exact congrArg (· + 1) h.size

/-- Several calls answer what reading each pattern anew would answer. -/
theorem Tracks.answers (h : s.Tracks texts) (more : List String) :
    (s.answers more).2.Tracks (texts ++ more) ∧
      (s.answers more).2.settings = s.settings ∧
      ((s.answers more).1, (s.answers more).2.source) =
        generateEach s.settings more s.source := by
  induction more generalizing s texts with
  | nil =>
    rw [List.append_nil]
    exact ⟨h, rfl, rfl⟩
  | cons text more ih =>
    obtain ⟨tracks, settings, same⟩ := ih (h.next text)
    rw [settings_next] at settings same
    rw [List.append_cons]
    refine ⟨tracks, settings, ?_⟩
    have first := h.next_eq text
    rw [generateEach, ← first]
    dsimp only
    rw [← same]
    rfl

/-- **Keeping patterns does not show.**  After any calls, the next one answers what reading the
pattern anew would answer and leaves the source where that would leave it, so all answers are those
of generations without a session.  A text that cannot be read changes nothing, and the session
counts the different texts so far that can be read. -/
theorem answers_eq_generateEach (settings : Settings) (g : σ) (texts : List String) :
    let fresh : Session σ := { source := g, settings }
    let s := (fresh.answers texts).2
    ((fresh.answers texts).1, s.source) = generateEach settings texts g ∧
      (∀ text, ((s.next text).1, (s.next text).2.source) = generateOnce text settings s.source) ∧
      (∀ text e, Pattern.ofString? text = .error e → s.next text = (.error e, s)) ∧
      s.cached = (readable texts).card := by
  intro fresh s
  obtain ⟨tracks, same, answers⟩ := (tracks_nil g settings).answers texts
  refine ⟨answers, fun text => ?_, fun text e failed => tracks.next_of_error failed, tracks.size⟩
  have step := tracks.next_eq text
  rwa [same] at step

end Session

end PatternSampler
