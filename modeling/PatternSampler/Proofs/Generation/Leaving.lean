/-
# Nodes that leave their language

An eligible node is chosen in the hope that it produces a text that it does not stand for.  A text
or a set always can.  A repetition is eligible for its bounds alone, and whether another number of
times makes a difference depends on its body: too few occurrences of a body that may be empty are
still enough, and too many may be read as fewer.

* `Yields.drawOutside`, `Yields.corruptText` : draws for a node that breaks its rule.
* `Expr.Overshoots` : too many occurrences make a difference.
* `Tree.Leaves` : some draws make a node leave its language.
* `Compiled.leaves_iff` : which eligible nodes do.
-/
import PatternSampler.Proofs.Generation.Longest
import PatternSampler.Proofs.Generation.Range

namespace PatternSampler

/-! ## Draws for a node that breaks its rule -/

namespace Yields

/-- Each number of times outside of the bounds is drawn. -/
theorem drawOutside {b : Bounds} (sensible : b.Sensible) {slack count : ℕ} {reserved : Bool}
    (outside : b.Outside slack count) : Yields (b.draw slack true reserved) count := by
  unfold Bounds.draw Bounds.drawInvalid
  rw [if_pos rfl]
  rcases outside with below | ⟨most, bounded, lt, le⟩
  · refine (Yields.draw (Span.mem_below.2 Nat.two_pos)).bind ?_
    have low : ¬ ((b.most.isSome ∧ 0 = 1) ∨ b.least = 0) := by
      rintro (⟨-, ⟨⟩⟩ | zero)
      omega
    rw [if_neg low]
    exact .draw (Span.mem_below.2 below)
  · refine (Yields.draw (Span.mem_below.2 Nat.one_lt_two)).bind ?_
    have high : (b.most.isSome ∧ 1 = 1) ∨ b.least = 0 := .inl ⟨by rw [bounded]; rfl, rfl⟩
    rw [if_pos high]
    exact .draw ((Bounds.mem_above_iff bounded (sensible.lt_maxCount bounded)).2 ⟨lt, le⟩)

/-- Any character of a text is replaced by any other one that can be chosen. -/
theorem corruptText {chars : List Char} {place : ℕ} (lt : place < chars.length) {other : Char}
    (mem : other.toNat ∈ (CharSet.allBut chars[place]).candidates false) :
    Yields (corruptText chars) (chars.set place other) := by
  have some : ¬ chars.isEmpty = true := by
    rw [List.isEmpty_iff]
    exact List.ne_nil_of_length_pos (Nat.zero_lt_of_lt lt)
  unfold PatternSampler.corruptText
  rw [if_neg some]
  refine (Yields.draw (Span.mem_below.2 lt)).bind ?_
  rw [List.getD_eq_getElem chars default lt]
  exact (Yields.pick (CharSet.counted_allBut _) mem).bind (.pure _)

/-- What can be generated is sampled with some draws. -/
theorem exists_sample {e : Expr} {settings : Settings} {route : Route} {w : List Char}
    (h : Yields (e.generate settings route) w) :
    ∃ g g' : Script, e.sample settings route g = .ok w g' := by
  obtain ⟨draws, captures, run⟩ := h ∅
  refine ⟨⟨draws ++ []⟩, ⟨[]⟩, ?_⟩
  rw [Expr.sample, run []]

end Yields

/-! ## Repetitions carried out too often or not often enough -/

namespace Expr

variable {own : Language Char} {body : Expr} {bounds : Bounds} {same : Bool} {slack : ℕ}

/-- If a part may be empty, fewer occurrences of it can be read as more. -/
theorem mem_repeated_of_le (keeps : KeepsLength own body) (nullable : [] ∈ own) {count count' : ℕ}
    (le : count ≤ count') {w : List Char} (mem : w ∈ body.repeated false count own) :
    w ∈ body.repeated false count' own := by
  have whole := whole_of_nil_mem keeps nullable
  rw [whole.repeated] at mem ⊢
  obtain ⟨more, rfl⟩ := Nat.exists_eq_add_of_le le
  have nothing : [] ∈ several own more false := nil_mem_several nullable
  show w ∈ own ^ (count + more)
  rw [pow_add]
  exact Language.mem_mul.2 ⟨w, mem, [], nothing, List.append_nil w⟩

/-- If no occurrence of a part can be read as some, then the part may be empty. -/
theorem nil_mem_of_mem_repeated (keeps : KeepsLength own body) {count : ℕ} (pos : 0 < count)
    {w : List Char} (mem : w ∈ body.repeated false count own)
    (length : w.length = body.repeatedWidth 0 0) : [] ∈ own := by
  rcases body.whole_or_text with whole | ⟨id, first, others, rfl⟩
  · rw [whole.repeated] at mem
    rw [whole.width, Nat.zero_mul] at length
    obtain ⟨words, rfl, rfl, all⟩ := Language.mem_pow.1 mem
    obtain ⟨v, hv⟩ := List.exists_mem_of_length_pos pos
    have empty : v = [] := List.flatten_eq_nil_iff.1 (List.length_eq_zero_iff.1 length) v hv
    exact empty ▸ all v hv
  · have some := length_of_mem_repeated_text keeps mem
    exact absurd (Nat.add_left_cancel (some.symm.trans length)) pos.ne'

/-- Some text made of more texts of the body than the bounds admit, as far as the slack goes, is
none that the repetition stands for. -/
def Overshoots (slack : ℕ) (body : Expr) (bounds : Bounds) (same : Bool) : Prop :=
  ∃ most count, bounds.most = some most ∧ most < count ∧ count ≤ addCount most (max slack 1) ∧
    ∃ w ∈ body.repeated same count (body.samples slack),
      w ∉ body.repeatedWords bounds body.language

/-- **When a repetition leaves its language** with a number of times outside of its bounds: if it
requires an occurrence of a body that is never empty, by leaving all of them out, and else only by
too many. -/
theorem exists_outside_iff (id : ℕ) (stocked : body.Stocked) :
    (∃ count, bounds.Outside slack count ∧ ∃ w ∈ body.repeated same count (body.samples slack),
      w ∉ (repetition id body bounds same).language) ↔
      0 < bounds.least ∧ [] ∉ body.language ∨ body.Overshoots slack bounds same := by
  have inner := stocked.represents slack
  have keeps := keepsLength_language body
  constructor
  · rintro ⟨count, few | ⟨most, bounded, lt, le⟩, w, mem, not⟩
    · by_cases nullable : [] ∈ body.language
      · -- missing occurrences may be empty ones
        refine absurd (mem_language_repetition_iff_repeated.2 ⟨bounds.least, ?_, ?_⟩) not
        · exact ⟨le_rfl, fun _ _ => le_max_left _ _⟩
        · exact mem_repeated_of_le keeps nullable few.le (mem_repeated_mono inner.sound mem)
      · exact .inl ⟨Nat.zero_lt_of_lt few, nullable⟩
    · exact .inr ⟨most, count, bounded, lt, le, w, mem, not⟩
  · rintro (⟨required, never⟩ | ⟨most, count, bounded, lt, le, w, mem, not⟩)
    · obtain ⟨v, hv⟩ := inner.exist
      have keeps' := keepsLength_samples slack body
      obtain ⟨w, hw, -⟩ := exists_mem_repeated keeps' hv same 0
      refine ⟨0, .inl required, w, hw, fun word => never ?_⟩
      obtain ⟨count, allows, word⟩ := mem_language_repetition_iff_repeated.1 word
      exact nil_mem_of_mem_repeated keeps (required.trans_le allows.1) word
        (length_of_mem_repeated_zero keeps' hw)
    · exact ⟨count, .inr ⟨most, bounded, lt, le⟩, w, mem, not⟩

/-- If words of a part put together are again words of it and it may be empty, then it does not
matter how often it occurs. -/
theorem mem_repeated_of_closed (keeps : KeepsLength own body) (nullable : [] ∈ own)
    (closed : ∀ u ∈ own, ∀ v ∈ own, u ++ v ∈ own) {count count' : ℕ} (pos : 0 < count')
    {w : List Char} (mem : w ∈ body.repeated false count own) :
    w ∈ body.repeated false count' own := by
  have whole := whole_of_nil_mem keeps nullable
  have together (words : List (List Char)) (all : ∀ v ∈ words, v ∈ own) : words.flatten ∈ own := by
    induction words with
    | nil => exact nullable
    | cons v words ih =>
      obtain ⟨first, others⟩ := List.forall_mem_cons.1 all
      exact closed v first words.flatten (ih others)
  have once : w ∈ body.repeated false 1 own := by
    rw [whole.repeated] at mem ⊢
    obtain ⟨words, rfl, -, all⟩ := Language.mem_pow.1 mem
    show words.flatten ∈ own ^ 1
    rw [pow_one]
    exact together words all
  exact mem_repeated_of_le keeps nullable pos once

/-- **Too many occurrences make no difference** if the body absorbs them. -/
theorem not_overshoots_of_closed (stocked : body.Stocked) (nullable : [] ∈ body.language)
    (closed : ∀ u ∈ body.language, ∀ v ∈ body.language, u ++ v ∈ body.language) {once : ℕ}
    (allows : bounds.Allows once) (pos : 0 < once) : ¬ body.Overshoots slack bounds same := by
  rintro ⟨most, count, -, -, -, w, mem, not⟩
  have words := mem_repeated_mono (stocked.represents slack).sound mem
  have fewer := mem_repeated_of_closed (keepsLength_language body) nullable closed pos words
  exact not (mem_repeatedWords.2 ⟨once, allows, fewer⟩)

/-- **Too many occurrences make a difference** if the words of the body do not get longer and longer
and are not all empty: one more of the longest is longer than any word of the repetition. -/
theorem overshoots_of_length_le (sensible : bounds.Sensible) (stocked : body.Stocked) {n : ℕ}
    (short : ∀ w ∈ body.language, w.length ≤ n) (some : ∃ w ∈ body.language, w ≠ [])
    (bounded : bounds.most.isSome) : body.Overshoots slack bounds same := by
  obtain ⟨most, bounded⟩ := Option.isSome_iff_exists.1 bounded
  obtain ⟨v, hv, longest⟩ := (stocked.represents slack).longest n short
  have pos : 0 < v.length := by
    obtain ⟨w, hw, ne⟩ := some
    exact (List.length_pos_iff.2 ne).trans_le (longest w hw)
  obtain ⟨w, hw, length⟩ := exists_mem_repeated (keepsLength_samples slack body) hv same (most + 1)
  refine ⟨most, most + 1, bounded, Nat.lt_succ_self most, ?_, w, hw, fun word => ?_⟩
  · rw [← Bounds.addCount_one (sensible.lt_maxCount bounded)]
    exact min_le_min_right _ (Nat.add_le_add_left (le_max_right _ _) most)
  · obtain ⟨count, allows, word⟩ := mem_repeatedWords.1 word
    have le : count ≤ most :=
      (allows.2 most bounded).trans (max_le (sensible.most most bounded).1 le_rfl)
    have wide := length_le_of_mem_repeated (keepsLength_language body) longest word
    have more : count < most + 1 := Nat.lt_succ_of_le le
    rw [length] at wide
    exact absurd wide (not_le.2 (repeatedWidth_lt body pos more))

end Expr

/-! ## Trees -/

namespace Tree

variable {t : Tree} {settings : Settings} {id : ℕ}

/-- Some draws of a random source make a node that is to break its rule produce a text that it does
not stand for. -/
def Leaves (t : Tree) (σ : Type) [RandomSource σ] (settings : Settings) (id : ℕ) : Prop :=
  ∃ (g g' : σ) (chars : List Char),
    (t.expr id).sample settings (Route.toward t id) g = .ok chars g' ∧ chars ∉ (t.expr id).language

theorem leaves_of_yields {w : List Char}
    (h : Yields ((t.expr id).generate settings (Route.toward t id)) w)
    (outside : w ∉ (t.expr id).language) : t.Leaves Script settings id := by
  obtain ⟨g, g', run⟩ := h.exists_sample
  exact ⟨g, g', w, run, outside⟩

/-- What a random source samples is generated. -/
theorem Leaves.exists_generate {σ : Type} [RandomSource σ] (h : t.Leaves σ settings id) :
    ∃ (g g' : GenerationState σ) (chars : List Char),
      (t.expr id).generate settings (Route.toward t id) g = .ok chars g' ∧
        chars ∉ (t.expr id).language := by
  obtain ⟨g, g', chars, run, outside⟩ := h
  obtain ⟨state, generated, -⟩ := Expr.sample_eq_ok_iff.1 run
  exact ⟨_, state, chars, generated, outside⟩

/-- **A text always leaves its language**: one of its characters is replaced. -/
theorem leaves_text (ordered : t.Ordered) {chars : List Char}
    (look : t.shape? id = some (.text chars)) (ne : chars ≠ []) :
    t.Leaves Script settings id := by
  obtain ⟨first, others, rfl⟩ := List.exists_cons_of_ne_nil ne
  have some := CharSet.selectable_allBut first
  rw [CharSet.selectable, (CharSet.counted_allBut first).choices] at some
  obtain ⟨other, mem⟩ := CharSet.exists_mem_candidates some
  have is : t.expr id = .text id (first :: others) := expr_eq ordered look
  refine leaves_of_yields (w := other :: others) ?_ ?_
  · have lt : 0 < (first :: others).length := Nat.zero_lt_succ others.length
    have yields : Yields (corruptText (first :: others)) ((first :: others).set 0 other) :=
      .corruptText lt (by rwa [List.getElem_cons_zero])
    rw [is, Expr.generate, if_pos (breaks_toward t id)]
    exact yields
  · rw [is, Expr.language]
    intro same
    exact CharSet.ne_of_mem_candidates_allBut mem (List.cons.inj same).1

/-- **A set that rejects a character of its table leaves its language.** -/
theorem leaves_set (ordered : t.Ordered) {s : CharSet} (look : t.shape? id = some (.set s))
    (counted : s.Counted) (some : s.isInvalidatable = true) : t.Leaves Script settings id := by
  have pos : 0 < s.excludable := of_decide_eq_true some
  rw [counted.excludable] at pos
  obtain ⟨c, mem⟩ := CharSet.exists_mem_candidates pos.ne'
  have is : t.expr id = .set id s := expr_eq ordered look
  refine leaves_of_yields (w := [c]) ?_ ?_
  · rw [is, Expr.generate, breaks_toward]
    exact (Yields.pick counted mem).bind (.pure [c])
  · rw [is, Expr.language]
    rintro ⟨c', accepts, eq⟩
    obtain rfl := List.singleton_inj.1 eq
    have rejects : s.accepts c = !true := (CharSet.toNat_mem_candidates.1 mem).2
    exact Bool.false_ne_true (rejects.symm.trans accepts)

section Repetition

variable (well : t.WellFormed) (linked : t.Linked)
  (regular : ∀ id shape, t.shape? id = some shape → shape.Regular)
  (plain : ∀ id target, t.shape? id ≠ some (.backref target))
  {body : ℕ} {bounds : Bounds} {same : Bool}
  (look : t.shape? id = some (.repetition body bounds same))

include well linked regular plain look in
/-- What a repetition produces is carried out outside of its bounds. -/
theorem Leaves.exists_outside {σ : Type} [RandomSource σ]
    (eligible : t.isInvalidatable id = true) (h : t.Leaves σ settings id) :
    ∃ count, bounds.Outside settings.slack count ∧
      ∃ w ∈ (t.expr body).repeated same count ((t.expr body).samples settings.slack),
        w ∉ (t.expr id).language := by
  obtain ⟨g, g', w, run, outside⟩ := h.exists_generate
  have mem := Expr.mem_mutants (toward_self well linked regular plain eligible) run
  have is : t.expr id = .repetition id (t.expr body) bounds same := expr_eq well.ordered look
  rw [is, Expr.mutants] at mem
  rcases mem with ⟨-, count, out, mem⟩ | ⟨ne, -⟩
  · exact ⟨count, out, w, mem, outside⟩
  · exact absurd rfl ne

include well linked regular plain look in
/-- Each text of the body as often as is drawn can be generated. -/
theorem leaves_of_outside {count : ℕ} (out : bounds.Outside settings.slack count) {w : List Char}
    (mem : w ∈ (t.expr body).repeated same count ((t.expr body).samples settings.slack))
    (outside : w ∉ (t.expr id).language) : t.Leaves Script settings id := by
  have untouched : (t.expr body).Untouched settings (Route.toward t id) :=
    untouched_body well linked regular plain look
  have is : t.expr id = .repetition id (t.expr body) bounds same := expr_eq well.ordered look
  refine leaves_of_yields ?_ outside
  rw [is, Expr.generate, breaks_toward]
  refine (Yields.drawOutside (regular id _ look) out).bind ?_
  exact Expr.yields_generateTimes (fun v hv => Expr.yields untouched hv) mem

end Repetition

end Tree

/-! ## Patterns -/

namespace Compiled

variable {source : String} {c : Compiled}

/-- **Texts and sets that are eligible always leave their language.** -/
theorem leaves_of_not_repetition (h : ofPattern? source = .ok c) {settings : Settings} {id : ℕ}
    (eligible : c.tree.isInvalidatable id = true) (other : ¬ c.tree.IsRepetition id) :
    c.tree.Leaves Script settings id := by
  have ordered := (ofPattern?_wellFormed h).ordered
  obtain ⟨shape, look, can⟩ := Tree.exists_shape_of_isInvalidatable eligible
  cases shape with
  | text chars =>
    have ne : chars ≠ [] := by simpa [Shape.isInvalidatable] using can
    exact Tree.leaves_text ordered look ne
  | set s =>
    have counted : s.Counted := ofPattern?_regular h look
    exact Tree.leaves_set ordered look counted can
  | repetition body bounds same => exact absurd ⟨body, bounds, same, look⟩ other
  | concat | alternation | group | backref => cases can

section Plain

variable (h : ofPattern? source = .ok c)
  (plain : ∀ id target, c.tree.shape? id ≠ some (.backref target))
  (choices : ∀ id s, c.tree.shape? id = some (.set s) → s.selectable ≠ 0)

include h plain choices in
theorem stocked (id : ℕ) : (c.tree.expr id).Stocked :=
  Tree.stocked (ofPattern?_wellFormed h) (fun _ _ => ofPattern?_regular h) plain choices id

include h plain choices in
/-- Which repetitions leave their language, with any random source or with draws given before. -/
theorem leaves_repetition {settings : Settings} {id body : ℕ} {bounds : Bounds} {same : Bool}
    (look : c.tree.shape? id = some (.repetition body bounds same))
    (eligible : c.tree.isInvalidatable id = true) :
    (∀ (σ : Type) [RandomSource σ], c.tree.Leaves σ settings id →
      0 < bounds.least ∧ [] ∉ (c.tree.expr body).language ∨
        (c.tree.expr body).Overshoots settings.slack bounds same) ∧
    (0 < bounds.least ∧ [] ∉ (c.tree.expr body).language ∨
        (c.tree.expr body).Overshoots settings.slack bounds same →
      c.tree.Leaves Script settings id) := by
  have well := ofPattern?_wellFormed h
  have linked := ofPattern?_linked h
  have regular (id : ℕ) (shape : Shape) (look : c.tree.shape? id = some shape) : shape.Regular :=
    ofPattern?_regular h look
  have stocked := stocked h plain choices body
  have is : c.tree.expr id = .repetition id (c.tree.expr body) bounds same :=
    Tree.expr_eq well.ordered look
  refine ⟨fun σ _ leaves => ?_, fun differs => ?_⟩
  · obtain ⟨count, out, w, mem, outside⟩ :=
      leaves.exists_outside well linked regular plain look eligible
    rw [is] at outside
    exact (Expr.exists_outside_iff id stocked).1 ⟨count, out, w, mem, outside⟩
  · obtain ⟨count, out, w, mem, outside⟩ :=
      (Expr.exists_outside_iff id stocked).2 differs
    rw [← is] at outside
    exact Tree.leaves_of_outside well linked regular plain look out mem outside

include h plain choices in
/-- **A repetition never leaves its language** if its body may be empty and absorbs further
occurrences, unless it allows none at all. -/
theorem not_leaves_of_closed {id body : ℕ} {bounds : Bounds} {same : Bool}
    (look : c.tree.shape? id = some (.repetition body bounds same))
    (eligible : c.tree.isInvalidatable id = true) (nullable : [] ∈ (c.tree.expr body).language)
    (closed : ∀ u ∈ (c.tree.expr body).language, ∀ v ∈ (c.tree.expr body).language,
      u ++ v ∈ (c.tree.expr body).language) {once : ℕ} (allows : bounds.Allows once)
    (pos : 0 < once) {σ : Type} [RandomSource σ] {settings : Settings} :
    ¬ c.tree.Leaves σ settings id := by
  intro leaves
  rcases (leaves_repetition h plain choices look eligible).1 σ leaves with
    ⟨-, never⟩ | overshoots
  · exact never nullable
  · have stocked := stocked h plain choices body
    exact Expr.not_overshoots_of_closed stocked nullable closed allows pos overshoots

end Plain

/-- **Which eligible nodes leave their language.**  In a pattern without backreferences, all of
whose sets have a character to choose, an eligible node produces a text that it does not stand for
with suitable draws, unless it is a repetition of which no occurrence is required or whose body may
be empty, and of which too many occurrences, as far as the slack goes, can always be read as an
allowed number of them.  No other random source does better than draws given before.  A bounded
repetition does leave its language if the words of its body do not get longer and longer and are not
all empty. -/
theorem leaves_iff (h : ofPattern? source = .ok c)
    (plain : ∀ id target, c.tree.shape? id ≠ some (.backref target))
    (choices : ∀ id s, c.tree.shape? id = some (.set s) → s.selectable ≠ 0) (settings : Settings)
    {id : ℕ} (eligible : c.tree.isInvalidatable id = true) :
    (c.tree.Leaves Script settings id ↔
      ∀ body bounds same, c.tree.shape? id = some (.repetition body bounds same) →
        0 < bounds.least ∧ [] ∉ (c.tree.expr body).language ∨
          (c.tree.expr body).Overshoots settings.slack bounds same) ∧
    (∀ (σ : Type) [RandomSource σ],
      c.tree.Leaves σ settings id → c.tree.Leaves Script settings id) ∧
    ∀ body bounds same n, c.tree.shape? id = some (.repetition body bounds same) →
      bounds.most.isSome = true → (∀ w ∈ (c.tree.expr body).language, w.length ≤ n) →
      (∃ w ∈ (c.tree.expr body).language, w ≠ []) → c.tree.Leaves Script settings id := by
  by_cases repeats : c.tree.IsRepetition id
  · obtain ⟨body, bounds, same, look⟩ := repeats
    obtain ⟨only, differs⟩ := leaves_repetition h plain choices look eligible
    refine ⟨⟨fun leaves _ _ _ look' => ?_, fun all => differs (all body bounds same look)⟩,
      fun σ _ leaves => differs (only σ leaves), fun _ _ _ n look' bounded short some => ?_⟩
    · cases look.symm.trans look'
      exact only Script leaves
    · cases look.symm.trans look'
      have sensible : bounds.Sensible := ofPattern?_regular h look
      have stocked := stocked h plain choices body
      exact differs (.inr (Expr.overshoots_of_length_le sensible stocked short some bounded))
  · have leaves : c.tree.Leaves Script settings id := leaves_of_not_repetition h eligible repeats
    refine ⟨iff_of_true leaves fun body bounds same look => ?_, fun _ _ _ => leaves,
      fun _ _ _ _ _ _ _ _ => leaves⟩
    exact absurd ⟨body, bounds, same, look⟩ repeats

/-- Two characters of a set, of which the number is to be wrong. -/
def pair : Compiled where
  tree := { nodes := #[
    { shape := .set (CharSet.ofItems true [.char 'a', .char 'b']), parent := some 1 },
    { shape := .repetition 0 ⟨2, some 2⟩ false }] }
  root := 1
  candidates := [1]
  hasMarker := true

theorem leaves_iff_pair : ofPattern? "[ab]\\i\x7b2\x7d" = .ok pair ∧
    pair.tree.isInvalidatable 1 = true ∧ pair.tree.Leaves Script {} 1 := by
  have read : ofPattern? "[ab]\\i\x7b2\x7d" = .ok pair := by decide +kernel
  have eligible : pair.tree.isInvalidatable 1 = true := by decide
  have set : pair.tree.shape? 0 = some (.set (CharSet.ofItems true [.char 'a', .char 'b'])) := rfl
  have twice : pair.tree.shape? 1 = some (.repetition 0 ⟨2, some 2⟩ false) := rfl
  have plain (id target : ℕ) : pair.tree.shape? id ≠ some (.backref target) := by
    intro look
    have lt : id < 2 := Tree.lt_size_of_shape? look
    interval_cases id
    · cases set.symm.trans look
    · cases twice.symm.trans look
  have choices (id : ℕ) (s : CharSet) (look : pair.tree.shape? id = some (.set s)) :
      s.selectable ≠ 0 := by
    have lt : id < 2 := Tree.lt_size_of_shape? look
    interval_cases id
    · rw [← Shape.set.inj (Option.some.inj (set.symm.trans look))]
      decide +kernel
    · cases twice.symm.trans look
  refine ⟨read, eligible, (leaves_iff read plain choices {} eligible).1.2 ?_⟩
  intro body bounds same look
  cases twice.symm.trans look
  refine .inl ⟨Nat.two_pos, ?_⟩
  rw [Tree.expr_eq (ofPattern?_wellFormed read).ordered set, Shape.unfold, Expr.language]
  rintro ⟨c, -, ⟨⟩⟩

/-- An anchor that may be left out, of which the number is to be wrong. -/
def optionalAnchor : Compiled where
  tree := { nodes := #[{ shape := .text [], parent := some 1 },
    { shape := .repetition 0 ⟨0, some 1⟩ false }] }
  root := 1
  candidates := [1]
  hasMarker := true

/-- A loop that may be left out, of which the number is to be wrong. -/
def optionalLoop : Compiled where
  tree := { nodes := #[{ shape := .text ['a'], parent := some 1 },
    { shape := .repetition 0 ⟨0, none⟩ false, parent := some 2 },
    { shape := .group 1 none none, parent := some 3 },
    { shape := .repetition 2 ⟨0, some 1⟩ false }] }
  root := 3
  candidates := [3]
  hasMarker := true

theorem mem_language_optionalLoop (ordered : optionalLoop.tree.Ordered) {w : List Char} :
    w ∈ (optionalLoop.tree.expr 2).language ↔ ∃ count, w = List.replicate count 'a' := by
  have text : optionalLoop.tree.shape? 0 = some (.text ['a']) := rfl
  have loop : optionalLoop.tree.shape? 1 = some (.repetition 0 ⟨0, none⟩ false) := rfl
  have group : optionalLoop.tree.shape? 2 = some (.group 1 none none) := rfl
  rw [Tree.expr_eq ordered group, Shape.unfold, Tree.expr_eq ordered loop, Shape.unfold,
    Tree.expr_eq ordered text, Shape.unfold, Expr.language, Expr.language]
  constructor
  · rintro ⟨count, -, rfl⟩
    exact ⟨count, rfl⟩
  · rintro ⟨count, rfl⟩
    exact ⟨count, ⟨Nat.zero_le count, by rintro _ ⟨⟩⟩, rfl⟩

/-- There are no backreferences, all sets have a character to choose, and the node that stands for
the whole pattern is eligible and yet never leaves its language, whatever is drawn. -/
structure Stays (c : Compiled) : Prop where
  plain : ∀ id target, c.tree.shape? id ≠ some (.backref target)
  choices : ∀ id s, c.tree.shape? id = some (.set s) → s.selectable ≠ 0
  eligible : c.tree.isInvalidatable c.root = true
  never : ∀ (σ : Type) [RandomSource σ] settings, ¬ c.tree.Leaves σ settings c.root

/-- **Eligible nodes need not be able to leave their language**: neither an optional anchor nor an
optional loop is. -/
theorem stays_optional :
    (ofPattern? "^\\i?" = .ok optionalAnchor ∧ optionalAnchor.Stays) ∧
      ofPattern? "(?:a*)\\i?" = .ok optionalLoop ∧ optionalLoop.Stays := by
  have once : (Bounds.mk 0 (some 1)).Allows 1 := by simp [Bounds.Allows]
  constructor
  · have read : ofPattern? "^\\i?" = .ok optionalAnchor := by decide +kernel
    have eligible : optionalAnchor.tree.isInvalidatable 1 = true := by decide
    have plain (id target : ℕ) : optionalAnchor.tree.shape? id ≠ some (.backref target) := by
      intro look
      have lt : id < 2 := Tree.lt_size_of_shape? look
      interval_cases id <;> cases look
    have choices (id : ℕ) (s : CharSet) (look : optionalAnchor.tree.shape? id = some (.set s)) :
        s.selectable ≠ 0 := by
      have lt : id < 2 := Tree.lt_size_of_shape? look
      interval_cases id <;> cases look
    have anchor : optionalAnchor.tree.shape? 0 = some (.text []) := rfl
    have empty : optionalAnchor.tree.expr 0 = .text 0 [] :=
      Tree.expr_eq (ofPattern?_wellFormed read).ordered anchor
    refine ⟨read, plain, choices, eligible, fun σ _ settings => ?_⟩
    refine not_leaves_of_closed read plain choices rfl eligible ?_ ?_ once Nat.one_pos
    · rw [empty, Expr.language]
      rfl
    · rw [empty, Expr.language]
      rintro _ rfl _ rfl
      rfl
  · have read : ofPattern? "(?:a*)\\i?" = .ok optionalLoop := by decide +kernel
    have eligible : optionalLoop.tree.isInvalidatable 3 = true := by decide
    have plain (id target : ℕ) : optionalLoop.tree.shape? id ≠ some (.backref target) := by
      intro look
      have lt : id < 4 := Tree.lt_size_of_shape? look
      interval_cases id <;> cases look
    have choices (id : ℕ) (s : CharSet) (look : optionalLoop.tree.shape? id = some (.set s)) :
        s.selectable ≠ 0 := by
      have lt : id < 4 := Tree.lt_size_of_shape? look
      interval_cases id <;> cases look
    have ordered := (ofPattern?_wellFormed read).ordered
    refine ⟨read, plain, choices, eligible, fun σ _ settings => ?_⟩
    refine not_leaves_of_closed read plain choices rfl eligible ?_ (fun u hu v hv => ?_) once
      Nat.one_pos
    · exact (mem_language_optionalLoop ordered).2 ⟨0, rfl⟩
    · obtain ⟨m, rfl⟩ := (mem_language_optionalLoop ordered).1 hu
      obtain ⟨n, rfl⟩ := (mem_language_optionalLoop ordered).1 hv
      exact (mem_language_optionalLoop ordered).2 ⟨m + n, List.replicate_append_replicate⟩

end Compiled

end PatternSampler
