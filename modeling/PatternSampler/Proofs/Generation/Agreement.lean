/-
# Generator and verdict agree

A string that a pattern without a marker generates matches the pattern, provided that every group
that is referred to has surely produced its text: none of its ancestors is an alternation or a
repetition that may be left out or goes on without bounds.  Such a group stands before its
backreference, in a part that has been gone through as a whole.

* `Tree.Certain` : no choice lies above a node.
* `Tree.Certain.inScope` : such a node is in scope everywhere.
* `Expr.Ready.matchesAll` : what is generated for an expression that is ready.
* `Pattern.fullMatch_of_generate` : generated strings match.
-/
import PatternSampler.Proofs.Generation.Scope
import PatternSampler.Proofs.Generation.Simulation
import PatternSampler.Proofs.Pattern
import PatternSampler.Random.Words

namespace PatternSampler

/-- Whether a node makes a choice of what occurs of its children: an alternation does, and so does a
repetition that may be left out or goes on without bounds. -/
def Shape.isChoice : Shape → Bool
  | alternation _ => true
  | repetition _ bounds _ => bounds.least = 0 || bounds.most.isNone
  | _ => false

namespace Tree

variable {t : Tree}

/-- No ancestor of a node makes a choice. -/
def Certain (t : Tree) (id : ℕ) : Prop :=
  ∀ above shape, t.Ancestor above id → t.shape? above = some shape → shape.isChoice = false

/-! ## Readiness -/

variable {settings : Settings}

/-- Every backreference replays a group above which no choice lies. -/
def Replays (t : Tree) (settings : Settings) : Prop :=
  ∀ id target, t.shape? id = some (.backref target) →
    settings.backrefs = .replay ∧ t.Certain target

/-- A group above which no choice lies is in scope everywhere. -/
theorem Certain.inScope (ordered : t.Ordered) {target : ℕ} (certain : t.Certain target) (id : ℕ) :
    t.InScope target id := by
  intro above child owns leads opened
  obtain ⟨shape, found, mem⟩ := owns
  have ancestor : t.Ancestor above target := .head' ⟨shape, found, mem⟩ leads
  have sure := certain above shape ancestor found
  rw [expr_eq ordered found] at opened
  cases shape with
  | text | set | concat | group | backref => cases opened
  | alternation branches => cases sure
  | repetition body bounds same =>
    obtain ⟨least, most⟩ := Bool.or_eq_false_iff.1 sure
    rw [Shape.unfold, Expr.leavesOpen, least, most] at opened
    cases opened

theorem Replays.recalls (ordered : t.Ordered) (replays : t.Replays settings) :
    t.Recalls settings := by
  intro id target found
  obtain ⟨mode, certain⟩ := replays id target found
  exact ⟨mode, certain.inScope ordered id⟩

/-- A part is ready if the groups before it are known. -/
theorem ready_of_block (well : t.WellFormed) (replays : t.Replays settings) {first id : ℕ}
    {known : Set GroupKey} (block : t.Block first id) (h : t.KnownBefore first known) :
    (t.expr id).Ready settings known :=
  ready_of_inScope well (replays.recalls well.ordered) block h

end Tree

/-- A string that is generated for an expression that is ready is matched as a whole. -/
theorem Expr.Ready.matchesAll {σ : Type} [RandomSource σ] {g g' : GenerationState σ} {e : Expr}
    {settings : Settings} {chars : List Char} (ready : e.Ready settings ∅)
    (run : e.generate settings {} g = .ok chars g') : e.MatchesAll chars := by
  have offer : Offers chars ∅ _ _ _ chars (Expr.Matches chars e) :=
    Expr.offers ready (fun _ mem => absurd mem (Set.notMem_empty _)) run
  obtain ⟨stop, derivation, reached, -⟩ := offer.leads ⟨0, fun _ => none⟩ (List.prefix_refl _)
    fun _ mem => absurd mem (Set.notMem_empty _)
  have pos : stop.pos = chars.length := by rw [reached.pos, Nat.zero_add]
  refine ⟨stop.captures, ?_⟩
  rw [← pos]
  exact derivation

namespace Pattern

variable {source : String} {p : Pattern} {σ : Type} [RandomSource σ]

/-- What is sampled without a marker is generated with no node to break its rule. -/
theorem generate_eq_ok {settings : Settings} {g : σ} {text : String}
    (unmarked : p.isInvalidating = false) (run : (p.generate settings g).1 = .ok text) :
    ∃ g' : GenerationState σ,
      p.compiled.expr.generate settings {} { source := g } = .ok text.toList g' := by
  rw [generate_of_unmarked unmarked] at run
  split at run
  · next chars state generated =>
    cases run
    exact ⟨state, by rw [generated, String.toList_ofList]⟩
  · cases run

/-- **Generated strings match.**  If no choice lies above any group that is referred to, and texts
are replayed where there are backreferences, then a string that a pattern without a marker
generates matches the pattern. -/
theorem fullMatch_of_generate (h : InUse source p) (unmarked : p.isInvalidating = false)
    (certain : ∀ id target, p.compiled.tree.shape? id = some (.backref target) →
      p.compiled.tree.Certain target)
    {settings : Settings} (mode : settings.backrefs = .replay ∨
      ∀ id target, p.compiled.tree.shape? id ≠ some (.backref target))
    {g : σ} {text : String} (run : (p.generate settings g).1 = .ok text) :
    (p.fullMatch text).1 = true := by
  have well := h.wellFormed
  have replays : p.compiled.tree.Replays settings := fun id target found =>
    ⟨mode.resolve_right fun plain => plain id target found, certain id target found⟩
  have block := Compiled.ofPattern?_block h.invariant.2.1
  have ready := Tree.ready_of_block well replays block (.start _)
  obtain ⟨g', generated⟩ := generate_eq_ok unmarked run
  rw [h.fullMatch]
  exact (well.fullMatch_program_iff h.slotsFit text.toList).2 (ready.matchesAll generated)

/-- A group in a bounded loop that is referred to behind the loop. -/
theorem fullMatch_of_generate_loop : ∃ p, InUse "(?:([ab])x)\x7b2\x7d\\1" p ∧
    (p.generate {} (WordStream.ofWords #[0])).1 = .ok "axaxa" ∧ (p.fullMatch "axaxa").1 = true := by
  have run : (ofString? "(?:([ab])x)\x7b2\x7d\\1").toOption.map (fun p => (p.isInvalidating,
      p.compiled.tree.nodes.all (fun node => !node.shape.isChoice),
      (p.generate {} (WordStream.ofWords #[0])).1)) = some (false, true, .ok "axaxa") := by
    decide +kernel
  obtain ⟨p, h, all⟩ := exists_inUse run
  have unmarked : p.isInvalidating = false := congrArg (fun r => r.1) all
  have safe : p.compiled.tree.nodes.all (fun node => !node.shape.isChoice) = true :=
    congrArg (fun r => r.2.1) all
  have generated : (p.generate {} (WordStream.ofWords #[0])).1 = .ok "axaxa" :=
    congrArg (fun r => r.2.2) all
  have certain (target : ℕ) : p.compiled.tree.Certain target := by
    intro above shape _ look
    have sure := Tree.shape_of_all (f := fun shape => !shape.isChoice) safe look
    rwa [Bool.not_eq_true'] at sure
  exact ⟨p, h, generated, fullMatch_of_generate h unmarked (fun _ target _ => certain target)
    (Or.inl rfl) generated⟩

end Pattern

end PatternSampler
