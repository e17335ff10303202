/-
# When generation fails

Generating draws from spans that are not empty and fails only where a set has no character to choose
from, unless that set is the node that is to break its rule: an eligible set always has a character
to reject.  Apart from that, a marked pattern fails if there is nothing to invalidate, or if what
was generated matches after all.

* `RandomSource.Reaches` : some draws lead from one source to another.
* `Careful` : what an action draws, and how it fails.
* `Tree.careful_generate` : generating a string of a node.
* `Pattern.generate_failures` : when a generation fails.
-/
import PatternSampler.Proofs.Generation.Rigid

namespace PatternSampler

/-- Draws from spans that are not empty lead from one source to another. -/
inductive RandomSource.Reaches {σ : Type} [RandomSource σ] (g : σ) : σ → Prop
  | refl : Reaches g g
  | draw {g' : σ} {s : Span} : Reaches g g' → 0 < s.count → Reaches g (RandomSource.draw s g').2

open RandomSource (Reaches)

theorem RandomSource.Reaches.trans {σ : Type} [RandomSource σ] {g g' g'' : σ}
    (first : Reaches g g') (second : Reaches g' g'') : Reaches g g'' := by
  induction second with
  | refl => exact first
  | draw _ some ih => exact ih.draw some

/-! ## Actions -/

variable {σ α β : Type} [RandomSource σ]

/-- An action draws from spans that are not empty, and if it fails then with an admitted error. -/
def Careful (admitted : SampleError → Prop) (x : Generating σ α) : Prop :=
  ∀ g, (∀ a g', x g = .ok a g' → Reaches g.source g'.source) ∧
    ∀ e g', x g = .error e g' → Reaches g.source g'.source ∧ admitted e

namespace Careful

variable {admitted : SampleError → Prop} {x y : Generating σ α} {f : α → Generating σ β}

theorem pure (a : α) : Careful admitted (pure a : Generating σ α) := by
  intro g
  refine ⟨?_, ?_⟩
  · rintro _ _ ⟨⟩
    exact .refl
  · rintro _ _ ⟨⟩

theorem throw {e : SampleError} (h : admitted e) : Careful admitted (throw e : Generating σ α) := by
  intro g
  refine ⟨?_, ?_⟩
  · rintro _ _ ⟨⟩
  · rintro _ _ ⟨⟩
    exact ⟨.refl, h⟩

theorem bind (first : Careful admitted x)
    (second : ∀ a g g', x g = .ok a g' → Careful admitted (f a)) : Careful admitted (x >>= f) := by
  intro g
  refine ⟨fun b g' run => ?_, fun e g' run => ?_⟩
  · obtain ⟨a, g₁, run, run'⟩ := bind_eq_ok_iff.1 run
    exact ((first g).1 a g₁ run).trans ((second a g g₁ run g₁).1 b g' run')
  · rcases bind_eq_error_iff.1 run with run | ⟨a, g₁, run, run'⟩
    · exact (first g).2 e g' run
    · obtain ⟨reaches, error⟩ := (second a g g₁ run g₁).2 e g' run'
      exact ⟨((first g).1 a g₁ run).trans reaches, error⟩

theorem ite {c : Prop} [Decidable c] (yes : c → Careful admitted x)
    (no : ¬ c → Careful admitted y) : Careful admitted (if c then x else y) := by
  split
  · exact yes ‹_›
  · exact no ‹_›

theorem draw {s : Span} (some : 0 < s.count) : Careful admitted (draw s : Generating σ ℕ) := by
  intro g
  refine ⟨?_, ?_⟩
  · rintro _ _ ⟨⟩
    exact .draw .refl some
  · rintro _ _ ⟨⟩

/-- A choice fails only if it has no candidate: each rank that is drawn is that of one. -/
theorem pick {set : CharSet} (counted : set.Counted) {invert : Bool}
    (h : set.candidates invert = ∅ → admitted .emptySet) :
    Careful admitted (set.pick invert : Generating σ Char) := by
  unfold CharSet.pick
  dsimp only
  rw [counted.count]
  refine .ite (fun none => .throw (h (Finset.card_eq_zero.1 none))) fun some => ?_
  have pos : 0 < (set.candidates invert).card := Nat.pos_of_ne_zero some
  refine .bind (.draw pos) fun rank g g' drawn => ?_
  have lt : rank < (set.candidates invert).card := Span.mem_below.1 ((draw_eq_ok drawn).2 pos)
  obtain ⟨c, found⟩ := CharSet.exists_nth?_of_lt lt
  rw [found]
  exact .pure c

/-- A text can always be corrupted. -/
theorem corruptText (chars : List Char) :
    Careful admitted (corruptText chars : Generating σ (List Char)) := by
  refine .ite (fun _ => .pure _) fun ne => .bind (.draw ?_) fun place _ _ _ => ?_
  · exact List.length_pos_iff.2 fun nil => ne (List.isEmpty_iff.2 nil)
  refine .bind (.pick (CharSet.counted_allBut _) fun none => ?_) fun _ _ _ _ => .pure _
  refine absurd ?_ (CharSet.selectable_allBut (chars.getD place default))
  rw [CharSet.selectable, (CharSet.counted_allBut _).choices, none, Finset.card_empty]

/-- A number of times is drawn from a span that is not empty, within the bounds or outside. -/
theorem boundsDraw (b : Bounds) (slack : ℕ) (invalid reserved : Bool) :
    Careful admitted (b.draw slack invalid reserved : Generating σ ℕ) := by
  unfold Bounds.draw Bounds.drawInvalid Bounds.drawValid
  refine .ite (fun _ => .bind (.draw Nat.two_pos) fun coin _ _ _ => ?_) fun _ => ?_
  · refine .ite (fun _ => .draw ?_) fun below => .draw ?_
    · exact b.count_above_pos slack
    · exact Nat.pos_of_ne_zero fun zero => below (.inr zero)
  · refine .ite (fun _ => .pure _) fun lt => .draw ?_
    show 0 < b.ceiling slack + 1 - b.floor reserved
    omega

theorem collect {action : Generating σ (List Char)} (h : Careful admitted action) (count : ℕ)
    (reversed : List Char) :
    Careful admitted (Generating.collect action count reversed) := by
  induction count generalizing reversed with
  | zero => exact .pure _
  | succ count ih => exact .bind h fun _ _ _ _ => ih _

theorem generateTimes {body : Generating σ (List Char)} (h : Careful admitted body)
    (isText same : Bool) (count : ℕ) :
    Careful admitted (Expr.generateTimes isText same count body) :=
  .ite (fun _ => .bind h fun _ _ _ _ => .pure _) fun _ => .ite (fun _ => .pure _) fun _ =>
    .ite (fun _ => .bind h fun _ _ _ _ => .pure _) fun _ => collect h count []

end Careful

/-! ## Trees -/

namespace Expr

variable {admitted : SampleError → Prop} {settings : Settings} {route : Route}

theorem careful_generateAll {es : List Expr}
    (each : ∀ e ∈ es, Careful admitted (e.generate settings route : Generating σ (List Char))) :
    Careful admitted (generateAll settings route es : Generating σ (List Char)) := by
  induction es with
  | nil =>
    rw [generateAll]
    exact .pure _
  | cons e es ih =>
    obtain ⟨first, others⟩ := List.forall_mem_cons.1 each
    rw [generateAll]
    exact .bind first fun _ _ _ _ => .bind (ih others) fun _ _ _ _ => .pure _

theorem careful_generateNth {es : List Expr}
    (each : ∀ e ∈ es, Careful admitted (e.generate settings route : Generating σ (List Char)))
    (n : ℕ) : Careful admitted (generateNth settings route es n : Generating σ (List Char)) := by
  induction es generalizing n with
  | nil =>
    rw [generateNth]
    exact .pure _
  | cons e es ih =>
    obtain ⟨first, others⟩ := List.forall_mem_cons.1 each
    cases n with
    | zero =>
      rw [generateNth]
      exact first
    | succ n =>
      rw [generateNth]
      exact ih others n

end Expr

namespace Tree

variable {t : Tree} {route : Route}

/-- Some set that is not to break its rule has no character to choose from. -/
def Lacks (t : Tree) (route : Route) : Prop :=
  ∃ id s, t.shape? id = some (.set s) ∧ route.breaks id = false ∧ s.candidates false = ∅

/-- **Generating a string of a node is careful**: it fails only where a set has no character to
choose from. -/
theorem careful_generate (settings : Settings) (well : t.WellFormed)
    (regular : ∀ id shape, t.shape? id = some shape → shape.Regular)
    (eligible : ∀ id, route.breaks id = true → t.isInvalidatable id = true) (id : ℕ) :
    Careful (fun e => e = .emptySet ∧ t.Lacks route)
      ((t.expr id).generate settings route : Generating σ (List Char)) := by
  induction id using Nat.strong_induction_on with
  | _ id ih =>
    rcases look : t.shape? id with _ | shape
    · rw [expr_eq_default look]
      unfold Expr.generate
      exact .ite (fun _ => .corruptText _) fun _ => .pure _
    have inner (r : ℕ) (hr : r ∈ shape.references) := ih r (well.ordered id shape look r hr)
    have sound := regular id shape look
    rw [expr_eq well.ordered look]
    cases shape with
    | text chars =>
      unfold Shape.unfold Expr.generate
      exact .ite (fun _ => .corruptText _) fun _ => .pure _
    | set s =>
      unfold Shape.unfold Expr.generate
      refine .bind (.pick sound fun none => ?_) fun _ _ _ _ => .pure _
      rcases breaks : route.breaks id with _ | _
      · rw [breaks] at none
        exact ⟨rfl, id, s, look, breaks, none⟩
      · -- an eligible set rejects some character of its table
        rw [breaks] at none
        have can := eligible id breaks
        rw [isInvalidatable, look] at can
        have pos : 0 < s.excludable := of_decide_eq_true can
        rw [sound.excludable, none, Finset.card_empty] at pos
        exact absurd pos (Nat.lt_irrefl 0)
    | concat parts =>
      unfold Shape.unfold Expr.generate
      exact Expr.careful_generateAll (List.forall_mem_map.2 inner)
    | alternation branches =>
      have nth := Expr.careful_generateNth (List.forall_mem_map.2 inner)
      have some : 0 < (branches.map t.expr).length :=
        List.length_pos_iff.2 (by simpa using well.branches id branches look)
      unfold Shape.unfold Expr.generate
      split
      · exact nth _
      · exact .bind (.draw some) fun n _ _ _ => nth n
    | repetition body bounds same =>
      unfold Shape.unfold Expr.generate
      refine .bind (.boundsDraw _ _ _ _) fun count _ _ _ => ?_
      exact .generateTimes (inner body List.mem_cons_self) _ _ _
    | group body name capture =>
      unfold Shape.unfold Expr.generate
      refine .bind (inner body List.mem_cons_self) fun chars _ _ _ g => ⟨?_, ?_⟩
      · rintro _ _ ⟨⟩
        cases capture <;> exact .refl
      · rintro _ _ ⟨⟩
    | backref target =>
      have anew := inner target List.mem_cons_self
      unfold Shape.unfold Expr.generate
      split
      · refine .bind (.bind (fun g => ⟨?_, ?_⟩) fun _ _ _ _ => .pure _) fun found _ _ _ => ?_
        · rintro _ _ ⟨⟩
          exact .refl
        · rintro _ _ ⟨⟩
        · split
          · exact .pure _
          · exact anew
      · exact anew

end Tree

/-! ## Patterns -/

namespace Compiled

variable {source : String} {c : Compiled}

/-- Some candidate can break its rule. -/
def HasEligible (c : Compiled) : Prop :=
  ∃ id ∈ c.candidates, c.tree.isInvalidatable id = true

/-- Choosing a node fails exactly if none is eligible, and then draws nothing. -/
theorem selectInvalid_cases (c : Compiled) (source : String) (g : σ) :
    (¬ c.HasEligible ∧
        c.tree.selectInvalid c.candidates source g = .error (.nothingToInvalidate source) g) ∨
      c.HasEligible ∧ ∃ id g', c.tree.selectInvalid c.candidates source g = .ok id g' ∧
        c.tree.isInvalidatable id = true ∧ Reaches g g' := by
  have step := c.tree.selectInvalid_eq c.candidates source g
  split at step
  · next empty =>
    refine .inl ⟨?_, step⟩
    rintro ⟨id, mem, eligible⟩
    exact Finset.notMem_empty id (empty ▸ Tree.mem_breakable.2 ⟨mem, eligible⟩)
  · next some =>
    obtain ⟨mem, eligible⟩ := Tree.selectInvalid_eq_ok step
    refine .inr ⟨⟨_, mem, eligible⟩, _, _, step, eligible, .draw .refl ?_⟩
    exact Finset.card_pos.2 (Finset.nonempty_iff_ne_empty.2 some)

/-- The node that a generation chooses to break its rule, if it chooses one. -/
def chosen? (c : Compiled) (source : String) (g : σ) : Option ℕ :=
  if c.hasMarker then
    match c.tree.selectInvalid c.candidates source g with
    | .ok id _ => some id
    | .error _ _ => none
  else none

/-- Some set other than the chosen node has no character to choose from. -/
def HasEmptySet (c : Compiled) (source : String) (g : σ) : Prop :=
  ∃ id s, c.tree.shape? id = some (.set s) ∧ c.chosen? source g ≠ some id ∧
    s.candidates false = ∅

/-- Unless there is nothing to invalidate, a string is generated along a route that at most breaks
the chosen node, which is eligible. -/
theorem sample_cases (c : Compiled) (source : String) (settings : Settings) (g : σ) :
    (c.hasMarker = true ∧ ¬ c.HasEligible ∧
        c.sample source settings g = .error (.nothingToInvalidate source) g) ∨
      (c.hasMarker = false ∨ c.HasEligible) ∧ ∃ route g', Reaches g g' ∧
        (∀ id, route.breaks id = true ↔ c.chosen? source g = some id) ∧
        (∀ id, route.breaks id = true → c.tree.isInvalidatable id = true) ∧
        c.sample source settings g =
          (String.ofList <$> c.expr.sample settings route : Sampling σ String) g' := by
  rcases marker : c.hasMarker with _ | _
  · right
    refine ⟨.inl rfl, {}, g, .refl, fun id => ?_, nofun, ?_⟩
    · rw [chosen?, marker]
      exact iff_of_false nofun nofun
    · rw [sample_of_unmarked marker]
  rcases c.selectInvalid_cases source g with ⟨none, run⟩ | ⟨some, id, g', run, eligible, reaches⟩
  · left
    refine ⟨rfl, none, ?_⟩
    rw [sample_of_marked marker, bind_of_eq_error run]
  · right
    refine ⟨.inr some, Route.toward c.tree id, g', reaches, fun place => ?_, fun place breaks => ?_,
      ?_⟩
    · rw [chosen?, if_pos marker, run]
      exact beq_iff_eq
    · obtain rfl : id = place := Option.some.inj (beq_iff_eq.1 breaks)
      exact eligible
    · rw [sample_of_marked marker, bind_of_eq_ok run]

end Compiled

namespace Pattern

variable {source : String} {p : Pattern}

/-- What is generated along a route for a whole pattern. -/
theorem InUse.careful_sample (h : InUse source p) (settings : Settings) {route : Route}
    (eligible : ∀ id, route.breaks id = true → p.compiled.tree.isInvalidatable id = true) (g : σ) :
    (∀ text g', (String.ofList <$> p.compiled.expr.sample settings route : Sampling σ String) g =
        .ok text g' → Reaches g g') ∧
      ∀ e g', (String.ofList <$> p.compiled.expr.sample settings route : Sampling σ String) g =
        .error e g' → Reaches g g' ∧ e = .emptySet ∧ p.compiled.tree.Lacks route := by
  have regular (id : ℕ) (shape : Shape) (look : p.compiled.tree.shape? id = some shape) :
      shape.Regular := Compiled.ofPattern?_regular h.invariant.2.1 look
  have careful := Tree.careful_generate settings h.wellFormed regular eligible p.compiled.root
    { source := g }
  refine ⟨fun text g' run => ?_, fun e g' run => ?_⟩
  · obtain ⟨chars, sampled, -⟩ := map_eq_ok_iff.1 run
    obtain ⟨state, generated, rfl⟩ := Expr.sample_eq_ok_iff.1 sampled
    exact careful.1 chars state generated
  · obtain ⟨state, generated, rfl⟩ := Expr.sample_eq_error_iff.1 (map_eq_error_iff.1 run)
    exact careful.2 e state generated

/-- Sampling fails if there is nothing to invalidate, and else only for want of a character. -/
theorem InUse.sample_cases (h : InUse source p) (settings : Settings) (g : σ) :
    (p.isInvalidating = true ∧ ¬ p.compiled.HasEligible ∧
        p.compiled.sample p.source settings g = .error (.nothingToInvalidate source) g) ∨
      (p.isInvalidating = false ∨ p.compiled.HasEligible) ∧ ∃ g', Reaches g g' ∧
        ((∃ text, p.compiled.sample p.source settings g = .ok text g') ∨
          p.compiled.HasEmptySet source g ∧
            p.compiled.sample p.source settings g = .error .emptySet g') := by
  rw [h.invariant.1]
  rcases p.compiled.sample_cases source settings g with
    nothing | ⟨some, route, g₁, reaches, breaks, eligible, same⟩
  · exact .inl nothing
  · right
    refine ⟨some, ?_⟩
    have careful := h.careful_sample settings eligible g₁
    rw [same]
    rcases run : (String.ofList <$> p.compiled.expr.sample settings route : Sampling σ String) g₁
      with ⟨text, g'⟩ | ⟨e, g'⟩
    · exact ⟨g', reaches.trans (careful.1 text g' run), .inl ⟨text, rfl⟩⟩
    · obtain ⟨reaches', rfl, id, s, look, spared, none⟩ := careful.2 e g' run
      refine ⟨g', reaches.trans reaches', .inr ⟨⟨id, s, look, fun chosen => ?_, none⟩, rfl⟩⟩
      exact Bool.false_ne_true (spared.symm.trans ((breaks id).2 chosen))

/-- **When a generation fails.**  It reports that there is nothing to invalidate exactly for a
marked pattern without eligible candidates.  Else it fails for want of a character to choose from a
set other than the chosen node, or because a checked string matches.  It does not fail otherwise,
and whether it fails or not, all that it draws comes from spans that are not empty. -/
theorem generate_failures (h : InUse source p) (settings : Settings) (g : σ) :
    let result := (p.generate settings g).1
    (result = .error (.nothingToInvalidate source) ↔
        p.isInvalidating = true ∧ ¬ p.compiled.HasEligible) ∧
      (∀ e, result = .error e → e = .nothingToInvalidate source ∨
        e = .emptySet ∧ p.compiled.HasEmptySet source g ∨
        ∃ text, e = .stillMatches source text ∧ p.isInvalidating = true ∧ settings.verify = true ∧
          (p.fullMatch text).1 = true) ∧
      (¬ p.compiled.HasEmptySet source g →
        p.isInvalidating = false ∨ p.compiled.HasEligible ∧ settings.verify = false →
          ∃ text, result = .ok text) ∧
      Reaches g (p.generate settings g).2.2 := by
  intro result
  have name : p.source = source := h.invariant.1
  rcases h.sample_cases settings g with ⟨marked, none, run⟩ | ⟨some, g', reaches, outcome⟩
  · -- nothing is drawn
    have eq : p.generate settings g = (.error (.nothingToInvalidate source), p, g) := by
      rw [generate, run]
    have failed : result = .error (.nothingToInvalidate source) := congrArg Prod.fst eq
    rw [failed, eq]
    refine ⟨iff_of_true rfl ⟨marked, none⟩, ?_, ?_, .refl⟩
    · rintro _ ⟨⟩
      exact .inl rfl
    · rintro - (unmarked | ⟨some, -⟩)
      · exact absurd marked (Bool.eq_false_iff.1 unmarked)
      · exact absurd some none
  have not : ¬ (p.isInvalidating = true ∧ ¬ p.compiled.HasEligible) := by
    rintro ⟨marked, none⟩
    exact some.elim (fun unmarked => Bool.eq_false_iff.1 unmarked marked) none
  rcases outcome with ⟨text, run⟩ | ⟨empty, run⟩
  · by_cases checked : p.isInvalidating = true ∧ settings.verify = true
    · -- the check draws nothing
      have eq : p.generate settings g = if (p.fullMatch text).1 = true then
          (.error (.stillMatches source text), p.lower, g') else (.ok text, p.lower, g') := by
        rw [generate, run, ← name]
        exact if_pos checked
      refine ⟨iff_of_false (fun failed => ?_) not, fun e failed => ?_, ?_, ?_⟩
      · rw [show result = _ from congrArg Prod.fst eq] at failed
        split at failed <;> cases failed
      · rw [show result = _ from congrArg Prod.fst eq] at failed
        split at failed <;> cases failed
        exact .inr (.inr ⟨text, rfl, checked.1, checked.2, ‹_›⟩)
      · rintro - (unmarked | ⟨-, unchecked⟩)
        · exact absurd checked.1 (Bool.eq_false_iff.1 unmarked)
        · exact absurd checked.2 (Bool.eq_false_iff.1 unchecked)
      · rw [eq]
        split <;> exact reaches
    · have eq : p.generate settings g = (.ok text, p, g') := by
        rw [generate, run]
        exact if_neg checked
      have succeeded : result = .ok text := congrArg Prod.fst eq
      rw [succeeded, eq]
      exact ⟨iff_of_false nofun not, nofun, fun _ _ => ⟨text, rfl⟩, reaches⟩
  · have eq : p.generate settings g = (.error .emptySet, p, g') := by
      rw [generate, run]
    have failed : result = .error .emptySet := congrArg Prod.fst eq
    rw [failed, eq]
    refine ⟨iff_of_false nofun not, ?_, fun full => absurd empty full, reaches⟩
    rintro _ ⟨⟩
    exact .inr (.inl ⟨rfl, empty⟩)

/-- Of two sets that accept no character of their tables one is chosen to break its rule; the other
one makes the generation fail. -/
theorem generate_failures_emptySet : ∃ p, InUse "[^\\x00-\\x7F]\\i[^\\x00-\\x7F]" p ∧
    p.isInvalidating = true ∧ p.compiled.HasEligible ∧
    (p.generate {} (WordStream.ofWords #[0])).1 = .error .emptySet ∧
    p.compiled.HasEmptySet "[^\\x00-\\x7F]\\i[^\\x00-\\x7F]" (WordStream.ofWords #[0]) := by
  have run : (ofString? "[^\\x00-\\x7F]\\i[^\\x00-\\x7F]").toOption.map (fun p =>
      (p.isInvalidating, (p.generate {} (WordStream.ofWords #[0])).1)) =
        some (true, .error .emptySet) := by
    decide +kernel
  obtain ⟨p, h, all⟩ := exists_inUse run
  have marked : p.isInvalidating = true := congrArg Prod.fst all
  have failed : (p.generate {} (WordStream.ofWords #[0])).1 = .error .emptySet :=
    congrArg Prod.snd all
  obtain ⟨nothing, errors, -, -⟩ := generate_failures h {} (WordStream.ofWords #[0])
  have some : p.compiled.HasEligible := by
    by_contra none
    cases failed.symm.trans (nothing.2 ⟨marked, none⟩)
  rcases errors _ failed with eq | ⟨-, empty⟩ | ⟨text, eq, -⟩
  · cases eq
  · exact ⟨p, h, marked, some, failed, empty⟩
  · cases eq

end Pattern

end PatternSampler
