/-
# Everything that can be generated is generated

Numbers that are drawn can be given beforehand, as a list of which each draw takes the first.  For
every string of an expression there is such a list with which the generator produces it: a branch,
a number of times or a character is drawn by its number, and the lists of several parts are put one
behind the other.

* `Script` is a random source whose draws are given beforehand.
* `Yields` : some draws make an action end with a value, whatever is drawn behind them.
* `Expr.yields` : every string of an expression can be generated.
* `Pattern.exists_generate_iff_mem_samples` : what can be generated for a pattern.
-/
import PatternSampler.Proofs.Generation.Agreement
import PatternSampler.Proofs.Generation.Samples

namespace PatternSampler

/-! ## Draws given beforehand -/

/-- A random source whose draws are given beforehand. -/
structure Script where
  /-- The draws that are still to come. -/
  draws : List ℕ

/-- A number that does not lie in the span it is drawn from is replaced by the least one. -/
instance : RandomSource Script where
  draw s g := (if g.draws.headD 0 ∈ s then g.draws.headD 0 else s.low, ⟨g.draws.tail⟩)
  draw_mem s g pos := by
    show (if g.draws.headD 0 ∈ s then g.draws.headD 0 else s.low) ∈ s
    split
    · assumption
    · exact Span.low_mem pos

variable {α β : Type}

/-- Some draws make an action end with a value, whatever is remembered of groups and whatever is to
be drawn behind them. -/
def Yields (x : Generating Script α) (a : α) : Prop :=
  ∀ captures, ∃ draws captures', ∀ behind,
    x ⟨⟨draws ++ behind⟩, captures⟩ = .ok a ⟨⟨behind⟩, captures'⟩

namespace Yields

variable {x : Generating Script α} {f : α → Generating Script β} {a : α} {b : β}

theorem pure (a : α) : Yields (pure a) a :=
  fun captures => ⟨[], captures, fun _ => rfl⟩

/-- The draws of two actions are put one behind the other. -/
theorem bind (first : Yields x a) (second : Yields (f a) b) : Yields (x >>= f) b := by
  intro captures
  obtain ⟨draws₁, captures₁, run₁⟩ := first captures
  obtain ⟨draws₂, captures₂, run₂⟩ := second captures₁
  refine ⟨draws₁ ++ draws₂, captures₂, fun behind => ?_⟩
  rw [List.append_assoc]
  exact bind_eq_ok_iff.2 ⟨a, _, run₁ (draws₂ ++ behind), run₂ behind⟩

/-- A number of a span is drawn. -/
theorem draw {s : Span} {n : ℕ} (mem : n ∈ s) : Yields (draw s) n := by
  intro captures
  refine ⟨[n], captures, fun behind => ?_⟩
  show EStateM.Result.ok (if n ∈ s then n else s.low) _ = _
  rw [if_pos mem]
  rfl

/-- A candidate of a choice is chosen by its rank. -/
theorem pick {s : CharSet} (counted : s.Counted) {invert : Bool} {c : Char}
    (mem : c.toNat ∈ s.candidates invert) : Yields (s.pick invert) c := by
  obtain ⟨rank, lt, found⟩ := CharSet.exists_nth? mem
  have some : ¬ (s.candidates invert).card = 0 := Nat.ne_of_gt (Nat.zero_lt_of_lt lt)
  unfold CharSet.pick
  dsimp only
  rw [counted.count, if_neg some]
  refine (Yields.draw (Span.mem_below.2 lt)).bind ?_
  rw [found]
  exact .pure c

/-- Each number of times that the bounds admit is drawn. -/
theorem boundsDraw {b : Bounds} {slack count : ℕ} (least : b.least ≤ count)
    (ceiling : count ≤ b.ceiling slack) : Yields (b.draw slack false false) count := by
  unfold Bounds.draw Bounds.drawValid
  rw [if_neg Bool.false_ne_true, b.floor_false]
  by_cases fixed : b.ceiling slack ≤ b.least
  · obtain rfl : b.least = count := le_antisymm least (ceiling.trans fixed)
    rw [if_pos fixed]
    exact .pure b.least
  · rw [if_neg fixed]
    exact .draw (Span.mem_between.2 ⟨least, ceiling⟩)

end Yields

namespace Expr

/-! ## Repetition -/

variable {own : Language Char} {action : Generating Script (List Char)}

/-- Texts that can be generated one by one can be generated one behind the other. -/
theorem yields_collect (each : ∀ w ∈ own, Yields action w) {count : ℕ} {v : List Char}
    (mem : v ∈ own ^ count) (reversed : List Char) :
    Yields (Generating.collect action count reversed) (reversed.reverse ++ v) := by
  induction count generalizing v reversed with
  | zero =>
    rw [pow_zero, Language.mem_one] at mem
    subst mem
    rw [List.append_nil]
    exact .pure reversed.reverse
  | succ count ih =>
    rw [pow_succ'] at mem
    obtain ⟨first, hfirst, others, hothers, rfl⟩ := Language.mem_mul.1 mem
    have rest := ih hothers (first.reverseAux reversed)
    rw [List.reverseAux_eq, List.reverse_append, List.reverse_reverse, List.append_assoc] at rest
    exact (each first hfirst).bind (by rwa [← List.reverseAux_eq] at rest)

/-- Occurrences of anything but a text. -/
theorem yields_several (each : ∀ w ∈ own, Yields action w) {same : Bool} {count : ℕ}
    {w : List Char} (mem : w ∈ several own count same) :
    Yields (generateTimes false same count action) w := by
  unfold generateTimes
  rw [if_neg Bool.false_ne_true]
  by_cases zero : count = 0
  · rw [if_pos zero]
    have nothing : w = [] := by
      subst zero
      cases same with
      | true =>
        rcases mem with ⟨-, eq⟩ | ⟨v, -, eq⟩
        · exact eq
        · exact eq
      | false => exact (Language.mem_one _).1 mem
    rw [nothing]
    exact .pure []
  rw [if_neg zero]
  cases same with
  | true =>
    obtain ⟨v, hv, rfl⟩ := mem.resolve_left fun both => zero both.1
    rw [if_pos rfl]
    refine (each v hv).bind ?_
    rw [repeatText_eq]
    exact .pure _
  | false =>
    rw [if_neg Bool.false_ne_true]
    exact yields_collect each mem []

theorem eq_nil_of_mem_several (empty : ∀ v ∈ own, v = []) {same : Bool} {count : ℕ} {w : List Char}
    (mem : w ∈ several own count same) : w = [] := by
  cases same with
  | true =>
    rcases mem with ⟨-, eq⟩ | ⟨v, hv, rfl⟩
    · exact eq
    · rw [empty v hv]
      simp
  | false =>
    have mem : w ∈ own ^ count := mem
    induction count generalizing w with
    | zero => exact (Language.mem_one _).1 mem
    | succ count ih =>
      rw [pow_succ] at mem
      obtain ⟨u, hu, v, hv, rfl⟩ := Language.mem_mul.1 mem
      rw [ih hu hu, empty v hv]
      rfl

/-- **Each string of a repeated part can be generated** if each string of the part can. -/
theorem yields_generateTimes {body : Expr} {slack : ℕ}
    (each : ∀ w ∈ body.samples slack, Yields action w) {same : Bool} {count : ℕ} {w : List Char}
    (mem : w ∈ body.repeated same count (body.samples slack)) :
    Yields (generateTimes body.isText same count action) w := by
  cases body with
  | text id chars =>
    have text : Yields (generateTimes true same count action) (repeatLast count chars) := by
      have own : chars ∈ (Expr.text id chars).samples slack := by
        rw [samples]
        exact Set.mem_singleton chars
      unfold generateTimes
      rw [if_pos rfl]
      exact (each chars own).bind (.pure _)
    have eq : w = repeatLast count chars := by
      cases chars with
      | nil =>
        have empty : ∀ v ∈ (Expr.text id []).samples slack, v = [] := by
          intro v hv
          rw [samples] at hv
          exact hv
        exact eq_nil_of_mem_several empty mem
      | cons first others =>
        obtain ⟨u, v, hv, rfl⟩ := mem
        rw [samples] at hv
        rw [← show u ++ [v] = first :: others from hv, repeatLast_concat]
    rw [eq]
    exact text
  | _ => exact yields_several each mem

/-! ## Expressions -/

variable {settings : Settings} {route : Route}

theorem yields_generateAll {parts : List Expr}
    (each : ∀ e ∈ parts, ∀ w ∈ e.samples settings.slack, Yields (e.generate settings route) w)
    {w : List Char} (mem : w ∈ samplesAll settings.slack parts) :
    Yields (generateAll settings route parts) w := by
  induction parts generalizing w with
  | nil =>
    rw [samplesAll, Language.mem_one] at mem
    subst mem
    rw [generateAll]
    exact .pure []
  | cons e es ih =>
    rw [samplesAll] at mem
    obtain ⟨first, hfirst, others, hothers, rfl⟩ := Language.mem_mul.1 mem
    rw [generateAll]
    refine (each e List.mem_cons_self first hfirst).bind (.bind ?_ (.pure _))
    exact ih (fun e he => each e (List.mem_cons_of_mem _ he)) hothers

/-- Each branch has a number by which it is drawn. -/
theorem exists_yields_generateNth {branches : List Expr} {e : Expr} (he : e ∈ branches)
    {w : List Char} (yields : Yields (e.generate settings route) w) :
    ∃ n < branches.length, Yields (generateNth settings route branches n) w := by
  induction branches with
  | nil => cases he
  | cons e' es ih =>
    rcases List.mem_cons.1 he with rfl | he
    · refine ⟨0, Nat.zero_lt_succ _, ?_⟩
      rw [generateNth]
      exact yields
    · obtain ⟨n, lt, run⟩ := ih he
      refine ⟨n + 1, Nat.succ_lt_succ lt, ?_⟩
      rw [generateNth]
      exact run

/-- **Each string of an expression can be generated**, if the route leaves it alone. -/
theorem yields {e : Expr} (untouched : e.Untouched settings route) {w : List Char}
    (mem : w ∈ e.samples settings.slack) : Yields (e.generate settings route) w := by
  induction e using Expr.induct generalizing w with
  | text id chars =>
    cases untouched with
    | text spared =>
      rw [samples] at mem
      rw [generate, if_neg (Bool.eq_false_iff.1 spared), show w = chars from mem]
      exact .pure chars
  | set id s =>
    cases untouched with
    | set spared counted =>
      obtain ⟨c, candidate, rfl⟩ := mem_samples_set.1 mem
      rw [generate, spared]
      exact (Yields.pick counted candidate).bind (.pure _)
  | concat id parts ih =>
    cases untouched with
    | concat all =>
      rw [samples] at mem
      rw [generate]
      exact yields_generateAll (fun e he w hw => ih e he (all e he) hw) mem
  | alternation id branches ih =>
    cases untouched with
    | alternation free ne all =>
      rw [samples] at mem
      obtain ⟨e, he, hw⟩ := mem_samplesAny.1 mem
      obtain ⟨n, lt, run⟩ := exists_yields_generateNth he (ih e he (all e he) hw)
      rw [generate, free]
      exact (Yields.draw (Span.mem_below.2 lt)).bind run
  | repetition id body bounds same ih =>
    cases untouched with
    | repetition spared free sensible inner =>
      rw [samples] at mem
      obtain ⟨count, ⟨least, ceiling⟩, hw⟩ := mem
      rw [generate, spared, free]
      refine (Yields.boundsDraw least ceiling).bind ?_
      exact yields_generateTimes (fun w hw => ih inner hw) hw
  | group id body capture ih =>
    cases untouched with
    | group inner =>
      rw [samples] at mem
      rw [generate]
      refine (ih inner mem).bind fun captures => ?_
      cases capture with
      | none => exact ⟨[], captures, fun _ => rfl⟩
      | some n => exact ⟨[], captures.insert id w, fun _ => rfl⟩
  | backref id target ih =>
    cases untouched with
    | backref mode inner =>
      rw [samples] at mem
      rw [generate, mode]
      exact ih inner mem

end Expr

/-! ## Patterns -/

namespace Pattern

variable {source : String} {p : Pattern}

/-- Without a marker the route leaves all nodes alone. -/
theorem InUse.aside (h : InUse source p) {settings : Settings}
    (mode : settings.backrefs = .regenerate ∨
      ∀ id target, p.compiled.tree.shape? id ≠ some (.backref target)) :
    p.compiled.tree.Aside settings {} {id | id < p.compiled.tree.size} where
  exist := fun _ lt => lt
  closed := fun id lt shape look r hr => (h.wellFormed.ordered id shape look r hr).trans lt
  spared := fun _ _ => rfl
  free := fun _ _ => rfl
  mode := mode.imp_right fun plain id _ => plain id

/-- **The strings that can be generated for a pattern** without a marker are exactly those of its
expression, if backreferences generate their targets anew or there are none.  Whatever the random
source, nothing else is generated, and each of them is generated with some source. -/
theorem exists_generate_iff_mem_samples (h : InUse source p) (unmarked : p.isInvalidating = false)
    {settings : Settings} (mode : settings.backrefs = .regenerate ∨
      ∀ id target, p.compiled.tree.shape? id ≠ some (.backref target)) (text : String) :
    (∃ (σ : Type) (_ : RandomSource σ) (g : σ), (p.generate settings g).1 = .ok text) ↔
      text.toList ∈ p.compiled.expr.samples settings.slack := by
  have root : p.compiled.root < p.compiled.tree.size := by
    rw [Compiled.ofPattern?_size h.invariant.2.1]
    exact Nat.lt_succ_self _
  have untouched : p.compiled.expr.Untouched settings {} :=
    Tree.untouched h.wellFormed (fun _ _ => Compiled.ofPattern?_regular h.invariant.2.1)
      (h.aside mode) root
  constructor
  · rintro ⟨σ, _, g, run⟩
    obtain ⟨g', generated⟩ := generate_eq_ok unmarked run
    exact Expr.mem_samples untouched generated
  · intro mem
    obtain ⟨draws, captures, run⟩ := Expr.yields untouched mem ∅
    refine ⟨Script, inferInstance, ⟨draws⟩, ?_⟩
    have generated := run []
    rw [List.append_nil] at generated
    rw [generate_of_unmarked unmarked, generated]
    exact congrArg Except.ok String.ofList_toList

/-- A backreference that is generated anew need not repeat the text of its group. -/
theorem exists_generate_iff_mem_samples_backref : ∃ p, InUse "([ab])\\1" p ∧
    (p.generate { backrefs := .regenerate } (Script.mk [0, 1])).1 = .ok "ab" ∧
      "ab".toList ∈ p.compiled.expr.samples 10 := by
  have run : (ofString? "([ab])\\1").toOption.map (fun p => (p.isInvalidating,
      (p.generate { backrefs := .regenerate } (Script.mk [0, 1])).1)) =
        some (false, .ok "ab") := by
    decide +kernel
  obtain ⟨p, h, all⟩ := exists_inUse run
  have unmarked : p.isInvalidating = false := congrArg Prod.fst all
  have generated : (p.generate { backrefs := .regenerate } (Script.mk [0, 1])).1 = .ok "ab" :=
    congrArg Prod.snd all
  have anew : ({ backrefs := .regenerate } : Settings).backrefs = .regenerate ∨
      ∀ id target, p.compiled.tree.shape? id ≠ some (.backref target) := Or.inl rfl
  have range := exists_generate_iff_mem_samples h unmarked anew "ab"
  exact ⟨p, h, generated, range.1 ⟨Script, inferInstance, Script.mk [0, 1], generated⟩⟩

end Pattern

end PatternSampler
