/-
# Strings and words

What is generated for an expression of which no node breaks its rule is a word of its language.
Not every word is generated, since characters come from the tables of sets and unbounded repetitions
stop somewhere.  But where the words do not get longer and longer, one of the strings is as long as
any word: a bounded repetition is carried out as often as it may be.

* `Represents` : strings that are words, one of which is as long as any word.
* `Expr.Stocked` : wherever something is to be chosen, there is something to choose from.
* `Expr.Stocked.represents` : the strings of such an expression represent its language.
-/
import PatternSampler.Proofs.Generation.Rigid

namespace PatternSampler

/-- Some words of a language, at least one, and if the length of its words is bounded, then one as
long as any of them. -/
structure Represents (strings words : Language Char) : Prop where
  sound : ∀ v ∈ strings, v ∈ words
  exist : ∃ v, v ∈ strings
  longest : ∀ n, (∀ w ∈ words, w.length ≤ n) → ∃ v ∈ strings, ∀ w ∈ words, w.length ≤ v.length

namespace Represents

variable {S S' L L' : Language Char}

theorem singleton (w : List Char) : Represents {w} {w} where
  sound := fun _ mem => mem
  exist := ⟨w, rfl⟩
  longest := by
    intro n _
    refine ⟨w, rfl, ?_⟩
    rintro _ rfl
    exact le_rfl

theorem mul (first : Represents S L) (second : Represents S' L') :
    Represents (S * S') (L * L') where
  sound := by
    intro w mem
    obtain ⟨u, hu, v, hv, rfl⟩ := Language.mem_mul.1 mem
    exact Language.mem_mul.2 ⟨u, first.sound u hu, v, second.sound v hv, rfl⟩
  exist := by
    obtain ⟨u, hu⟩ := first.exist
    obtain ⟨v, hv⟩ := second.exist
    exact ⟨u ++ v, Language.mem_mul.2 ⟨u, hu, v, hv, rfl⟩⟩
  longest := by
    intro n bounded
    have total {u v : List Char} (hu : u ∈ L) (hv : v ∈ L') : u.length + v.length ≤ n := by
      rw [← List.length_append]
      exact bounded _ (Language.mem_mul.2 ⟨u, hu, v, hv, rfl⟩)
    obtain ⟨u₀, hu₀⟩ := first.exist
    obtain ⟨v₀, hv₀⟩ := second.exist
    obtain ⟨u, hu, left⟩ := first.longest n fun w hw =>
      (Nat.le_add_right _ _).trans (total hw (second.sound v₀ hv₀))
    obtain ⟨v, hv, right⟩ := second.longest n fun w hw =>
      (Nat.le_add_left _ _).trans (total (first.sound u₀ hu₀) hw)
    refine ⟨u ++ v, Language.mem_mul.2 ⟨u, hu, v, hv, rfl⟩, fun w hw => ?_⟩
    obtain ⟨a, ha, b, hb, rfl⟩ := Language.mem_mul.1 hw
    rw [List.length_append, List.length_append]
    exact Nat.add_le_add (left a ha) (right b hb)

theorem add (first : Represents S L) (second : Represents S' L') :
    Represents (S + S') (L + L') where
  sound := by
    rintro w (mem | mem)
    · exact Or.inl (first.sound w mem)
    · exact Or.inr (second.sound w mem)
  exist := by
    obtain ⟨v, hv⟩ := first.exist
    exact ⟨v, Or.inl hv⟩
  longest := by
    intro n bounded
    obtain ⟨u, hu, left⟩ := first.longest n fun w hw => bounded w (Or.inl hw)
    obtain ⟨v, hv, right⟩ := second.longest n fun w hw => bounded w (Or.inr hw)
    rcases le_total u.length v.length with le | le
    · refine ⟨v, Or.inr hv, ?_⟩
      rintro w (mem | mem)
      · exact (left w mem).trans le
      · exact right w mem
    · refine ⟨u, Or.inl hu, ?_⟩
      rintro w (mem | mem)
      · exact left w mem
      · exact (right w mem).trans le

end Represents

namespace Expr

/-! ## Repetition -/

section Repetition

variable {own own' : Language Char} {body : Expr} {same : Bool} {count count' n : ℕ}
  {v w : List Char}

theorem keepsLength_language (body : Expr) : KeepsLength body.language body := by
  rintro id chars rfl w mem
  rw [language] at mem
  rw [show w = chars from mem]

/-- Texts that are all the same are a special case. -/
theorem mem_pow_of_mem_several (sub : ∀ v ∈ own, v ∈ own') (mem : w ∈ several own count same) :
    w ∈ own' ^ count := by
  rw [Language.mem_pow]
  cases same with
  | false =>
    obtain ⟨words, rfl, length, all⟩ := Language.mem_pow.1 (show w ∈ own ^ count from mem)
    exact ⟨words, rfl, length, fun v hv => sub v (all v hv)⟩
  | true =>
    rcases mem with ⟨rfl, rfl⟩ | ⟨v, hv, rfl⟩
    · exact ⟨[], rfl, rfl, fun v hv => absurd hv List.not_mem_nil⟩
    · refine ⟨List.replicate count v, rfl, List.length_replicate, fun u hu => ?_⟩
      rw [List.eq_of_mem_replicate hu]
      exact sub v hv

theorem mem_repeated_mono (sub : ∀ v ∈ own, v ∈ own') (mem : w ∈ body.repeated same count own) :
    w ∈ body.repeated false count own' := by
  rcases body.whole_or_text with whole | ⟨id, first, others, rfl⟩
  · rw [whole.repeated] at mem ⊢
    exact mem_pow_of_mem_several sub mem
  · obtain ⟨u, last, hu, rfl⟩ := mem
    exact ⟨u, last, sub _ hu, rfl⟩

/-- One and the same text can be repeated. -/
theorem exists_mem_repeated (keeps : KeepsLength own body) (mem : v ∈ own) (same : Bool)
    (count : ℕ) :
    ∃ w ∈ body.repeated same count own, w.length = body.repeatedWidth count v.length := by
  rcases body.whole_or_text with whole | ⟨id, first, others, rfl⟩
  · rw [whole.repeated, whole.width]
    refine ⟨(List.replicate count v).flatten, ?_, by simp⟩
    cases same with
    | true => exact Or.inr ⟨v, mem, rfl⟩
    | false =>
      refine Language.mem_pow.2 ⟨_, rfl, List.length_replicate, fun u hu => ?_⟩
      rwa [List.eq_of_mem_replicate hu]
  · have length : v.length = others.length + 1 := keeps id (first :: others) rfl v mem
    rcases v.eq_nil_or_concat' with rfl | ⟨u, last, rfl⟩
    · cases length
    · have repeated : u ++ List.replicate count last ∈
          (text id (first :: others)).repeated same count own := ⟨u, last, mem, rfl⟩
      exact ⟨_, repeated, length_of_mem_repeated_text keeps repeated⟩

/-- What is repeated is not longer than the longest text as often. -/
theorem length_le_of_mem_repeated (keeps : KeepsLength own body) (each : ∀ v ∈ own, v.length ≤ n)
    (mem : w ∈ body.repeated same count own) : w.length ≤ body.repeatedWidth count n := by
  rcases body.whole_or_text with whole | ⟨id, first, others, rfl⟩
  · rw [whole.repeated] at mem
    rw [whole.width]
    obtain ⟨words, rfl, rfl, all⟩ :=
      Language.mem_pow.1 (mem_pow_of_mem_several (fun _ hv => hv) mem)
    rw [List.length_flatten, ← List.length_map List.length, ← smul_eq_mul]
    refine List.sum_le_card_nsmul _ n fun length hlength => ?_
    obtain ⟨v, hv, rfl⟩ := List.mem_map.1 hlength
    exact each v (all v hv)
  · exact (length_of_mem_repeated_text keeps mem).le

/-- A part that is not empty is at least as wide as the number of times that it is repeated. -/
theorem le_repeatedWidth (body : Expr) (pos : 0 < n) : count ≤ body.repeatedWidth count n := by
  rcases body.whole_or_text with whole | ⟨id, first, others, rfl⟩
  · rw [whole.width]
    exact Nat.le_mul_of_pos_right count pos
  · exact Nat.le_add_left count others.length

/-- What is repeated at least once is at least as long as the text that is repeated. -/
theorem length_le_repeatedWidth (keeps : KeepsLength own body) (mem : v ∈ own) (pos : 0 < count) :
    v.length ≤ body.repeatedWidth count v.length := by
  rcases body.whole_or_text with whole | ⟨id, first, others, rfl⟩
  · rw [whole.width]
    exact Nat.le_mul_of_pos_left v.length pos
  · rw [keeps id (first :: others) rfl v mem]
    exact Nat.add_le_add_left pos others.length

/-- A part that may be empty is repeated as a whole. -/
theorem whole_of_nil_mem (keeps : KeepsLength own body) (mem : [] ∈ own) : body.Whole := by
  rcases body.whole_or_text with whole | ⟨id, first, others, rfl⟩
  · exact whole
  · cases keeps id (first :: others) rfl [] mem

/-- What is not repeated at all does not depend on what the part stands for. -/
theorem length_of_mem_repeated_zero (keeps : KeepsLength own body)
    (mem : w ∈ body.repeated same 0 own) : w.length = body.repeatedWidth 0 0 := by
  rcases body.whole_or_text with whole | ⟨id, first, others, rfl⟩
  · rw [whole.repeated] at mem
    rw [whole.width, (Language.mem_one w).1 (mem_pow_of_mem_several (fun _ hv => hv) mem)]
    rfl
  · exact length_of_mem_repeated_text keeps mem

end Repetition

/-! ### Repetitions with bounds on their words -/

section Short

variable {id : ℕ} {body : Expr} {bounds : Bounds} {same : Bool} {count n : ℕ} {v w : List Char}

/-- The words of a repetition that is carried out an allowed number of times. -/
theorem repeatedWidth_le_of_allows
    (short : ∀ w ∈ (repetition id body bounds same).language, w.length ≤ n)
    (allows : bounds.Allows count) (mem : v ∈ body.language) :
    body.repeatedWidth count v.length ≤ n := by
  obtain ⟨w, hw, eq⟩ := exists_mem_repeated body.keepsLength_language mem false count
  rw [← eq]
  exact short w (mem_language_repetition_iff_repeated.2 ⟨count, allows, hw⟩)

/-- Only an empty part can be repeated without bounds. -/
theorem eq_nil_of_unbounded
    (short : ∀ w ∈ (repetition id body bounds same).language, w.length ≤ n)
    (unbounded : bounds.most = none) (mem : v ∈ body.language) : v = [] := by
  by_contra some
  have many : bounds.Allows (bounds.least + (n + 1)) := by
    refine ⟨Nat.le_add_right _ _, fun most bounded => ?_⟩
    rw [unbounded] at bounded
    cases bounded
  have wide := (le_repeatedWidth body (List.length_pos_iff.2 some)).trans
    (repeatedWidth_le_of_allows short many mem)
  omega

/-- Where the repetition must be left out all words have one length. -/
theorem length_of_mem_repetition_zero (never : ∀ count, bounds.Allows count → count = 0)
    (mem : w ∈ (repetition id body bounds same).language) :
    w.length = body.repeatedWidth 0 0 := by
  obtain ⟨count, allows, repeated⟩ := mem_language_repetition_iff_repeated.1 mem
  rw [never count allows] at repeated
  exact length_of_mem_repeated_zero body.keepsLength_language repeated

/-- Repeating a longest text as often as allowed gives a longest word. -/
theorem length_le_of_mem_repetition {most : ℕ} (bounded : bounds.most = some most)
    (le : bounds.least ≤ most) (each : ∀ v ∈ body.language, v.length ≤ n)
    (mem : w ∈ (repetition id body bounds same).language) :
    w.length ≤ body.repeatedWidth most n := by
  obtain ⟨count, allows, repeated⟩ := mem_language_repetition_iff_repeated.1 mem
  have often : count ≤ most := (allows.2 most bounded).trans (max_le le le_rfl)
  exact (length_le_of_mem_repeated body.keepsLength_language each repeated).trans
    (repeatedWidth_le body _ often)

/-- Repeating nothing but empty texts gives nothing but empty words. -/
theorem eq_nil_of_mem_repetition (whole : body.Whole) (each : ∀ v ∈ body.language, v = [])
    (mem : w ∈ (repetition id body bounds same).language) : w = [] := by
  obtain ⟨count, -, repeated⟩ := mem_language_repetition_iff_repeated.1 mem
  have width := length_le_of_mem_repeated body.keepsLength_language
    (fun v hv => (List.length_eq_zero_iff.2 (each v hv)).le) repeated
  rw [whole.width, Nat.mul_zero] at width
  exact List.length_eq_zero_iff.1 (Nat.le_zero.1 width)

end Short

variable {slack : ℕ}

/-- **The strings of a repetition represent its language** if those of its body do. -/
theorem represents_repetition {id : ℕ} {body : Expr} {bounds : Bounds} {same : Bool}
    (sensible : bounds.Sensible) (inner : Represents (body.samples slack) body.language) :
    Represents ((repetition id body bounds same).samples slack)
      (repetition id body bounds same).language := by
  have keeps := keepsLength_samples slack body
  have order := sensible.representable.least_le_ceiling slack
  have allowed : bounds.Allows bounds.least := ⟨le_rfl, fun _ _ => le_max_left _ _⟩
  refine ⟨fun w mem => ?_, ?_, fun n short => ?_⟩
  · rw [samples] at mem
    obtain ⟨count, ⟨least, ceiling⟩, mem⟩ := mem
    refine mem_language_repetition_iff_repeated.2
      ⟨count, ⟨least, fun most bounded => ?_⟩, mem_repeated_mono inner.sound mem⟩
    rw [Bounds.ceiling, bounded, Option.getD_some] at ceiling
    exact ceiling.trans (le_max_right _ _)
  · obtain ⟨v, hv⟩ := inner.exist
    obtain ⟨w, hw, -⟩ := exists_mem_repeated keeps hv same bounds.least
    rw [samples]
    exact ⟨w, bounds.least, ⟨le_rfl, order⟩, hw⟩
  rw [samples]
  by_cases never : ∀ count, bounds.Allows count → count = 0
  · obtain ⟨v, hv⟩ := inner.exist
    obtain ⟨w, hw, -⟩ := exists_mem_repeated keeps hv same 0
    refine ⟨w, ⟨0, ⟨(never _ allowed).le, Nat.zero_le _⟩, hw⟩, fun w' hw' => ?_⟩
    rw [length_of_mem_repeated_zero keeps hw, length_of_mem_repetition_zero never hw']
  push Not at never
  obtain ⟨once, allows, ne⟩ := never
  rcases bound : bounds.most with _ | most
  · have empty := fun v (hv : v ∈ body.language) => eq_nil_of_unbounded short bound hv
    obtain ⟨v, hv⟩ := inner.exist
    have whole : body.Whole := whole_of_nil_mem keeps (empty v (inner.sound v hv) ▸ hv)
    obtain ⟨w, hw, -⟩ := exists_mem_repeated keeps hv same bounds.least
    refine ⟨w, ⟨bounds.least, ⟨le_rfl, order⟩, hw⟩, fun w' hw' => ?_⟩
    rw [eq_nil_of_mem_repetition whole empty hw']
    exact Nat.zero_le _
  · obtain ⟨v, hv, longest⟩ := inner.longest n fun u hu =>
      (length_le_repeatedWidth body.keepsLength_language hu (Nat.pos_of_ne_zero ne)).trans
        (repeatedWidth_le_of_allows short allows hu)
    obtain ⟨w, hw, eq⟩ := exists_mem_repeated keeps hv same most
    obtain ⟨least, -⟩ := sensible.most most bound
    refine ⟨w, ⟨most, ⟨least, ?_⟩, hw⟩, fun w' hw' => ?_⟩
    · rw [Bounds.ceiling, bound, Option.getD_some]
    · rw [eq]
      exact length_le_of_mem_repetition bound least longest hw'

/-! ## Expressions -/

/-- Every set has a character to choose, every alternation a branch and every repetition sensible
bounds, and there are no backreferences. -/
inductive Stocked : Expr → Prop
  | text {id : ℕ} {chars : List Char} : Stocked (text id chars)
  | set {id : ℕ} {s : CharSet} {c : Char} : c.toNat ∈ s.candidates false → Stocked (set id s)
  | concat {id : ℕ} {parts : List Expr} : (∀ e ∈ parts, Stocked e) → Stocked (concat id parts)
  | alternation {id : ℕ} {branches : List Expr} :
      branches ≠ [] → (∀ e ∈ branches, Stocked e) → Stocked (alternation id branches)
  | repetition {id : ℕ} {body : Expr} {bounds : Bounds} {same : Bool} :
      bounds.Sensible → Stocked body → Stocked (repetition id body bounds same)
  | group {id : ℕ} {body : Expr} {capture : Option ℕ} :
      Stocked body → Stocked (group id body capture)

theorem represents_set {id : ℕ} {s : CharSet} {c : Char} (mem : c.toNat ∈ s.candidates false) :
    Represents ((set id s).samples slack) (set id s).language := by
  have own : [c] ∈ (set id s).samples slack := mem_samples_set.2 ⟨c, mem, rfl⟩
  refine ⟨fun v hv => ?_, ⟨[c], own⟩, fun n _ => ⟨[c], own, fun w hw => ?_⟩⟩
  · rw [samples] at hv
    obtain ⟨x, -, accepts, rfl⟩ := hv
    rw [language]
    exact ⟨x, accepts, rfl⟩
  · rw [language] at hw
    obtain ⟨x, -, rfl⟩ := hw
    exact le_rfl

theorem represents_all {parts : List Expr}
    (each : ∀ e ∈ parts, Represents (e.samples slack) e.language) :
    Represents (samplesAll slack parts) (languageAll parts) := by
  induction parts with
  | nil =>
    rw [samplesAll, languageAll]
    exact .singleton []
  | cons e es ih =>
    obtain ⟨first, others⟩ := List.forall_mem_cons.1 each
    rw [samplesAll, languageAll]
    exact first.mul (ih others)

theorem represents_any {branches : List Expr} (ne : branches ≠ [])
    (each : ∀ e ∈ branches, Represents (e.samples slack) e.language) :
    Represents (samplesAny slack branches) (languageAny branches) := by
  induction branches with
  | nil => exact absurd rfl ne
  | cons e es ih =>
    obtain ⟨first, others⟩ := List.forall_mem_cons.1 each
    rw [samplesAny, languageAny]
    by_cases last : es = []
    · subst last
      rw [samplesAny, languageAny, add_zero, add_zero]
      exact first
    · exact first.add (ih last others)

/-- **The strings of an expression represent its language**, if there is always something to choose
from. -/
theorem Stocked.represents {e : Expr} (stocked : e.Stocked) (slack : ℕ) :
    Represents (e.samples slack) e.language := by
  induction stocked with
  | text =>
    rw [samples, language]
    exact .singleton _
  | set mem => exact represents_set mem
  | concat _ ih =>
    rw [samples, language]
    exact represents_all ih
  | alternation ne _ ih =>
    rw [samples, language]
    exact represents_any ne ih
  | repetition sensible _ ih => exact represents_repetition sensible ih
  | group _ ih =>
    rw [samples, language]
    exact ih

end Expr

/-! ## Trees -/

/-- There is something to choose everywhere in the expression of a node, if that is so for all
nodes and there are no backreferences. -/
theorem Tree.stocked {t : Tree} (well : t.WellFormed)
    (regular : ∀ id shape, t.shape? id = some shape → shape.Regular)
    (plain : ∀ id target, t.shape? id ≠ some (.backref target))
    (choices : ∀ id s, t.shape? id = some (.set s) → s.selectable ≠ 0) (id : ℕ) :
    (t.expr id).Stocked := by
  induction id using Nat.strong_induction_on with
  | _ id ih =>
    rcases look : t.shape? id with _ | shape
    · rw [expr_eq_default look]
      exact .text
    have inner (r : ℕ) (hr : r ∈ shape.references) := ih r (well.ordered id shape look r hr)
    have sound := regular id shape look
    rw [expr_eq well.ordered look]
    cases shape with
    | text chars => exact .text
    | set s =>
      have sound : s.Counted := sound
      have some : s.selectable ≠ 0 := choices id s look
      rw [CharSet.selectable, sound.choices] at some
      obtain ⟨c, mem⟩ := CharSet.exists_mem_candidates some
      exact .set mem
    | concat parts => exact .concat (List.forall_mem_map.2 inner)
    | alternation branches =>
      have ne : branches.map t.expr ≠ [] := by simpa using well.branches id branches look
      exact .alternation ne (List.forall_mem_map.2 inner)
    | repetition body bounds same => exact .repetition sound (inner body List.mem_cons_self)
    | group body name capture => exact .group (inner body List.mem_cons_self)
    | backref target => exact absurd look (plain id target)

end PatternSampler
