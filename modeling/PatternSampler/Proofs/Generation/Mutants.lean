/-
# One node breaks its rule

A string that is meant not to match differs from one that is meant to in what a single node
produced.  The node that the route names breaks its own rule, its ancestors pass what it produced
on, each through the child on the way to it, and everything else keeps its rule.

* `Expr.mutants` : the strings of an expression in which the node at one place breaks its rule.
* `Expr.Toward` : the route goes through an expression.
* `Expr.mem_mutants` : what is generated for such an expression is one of these strings.
* `Compiled.mem_mutants_of_sample` : what is generated for a pattern with a node to break.
-/
import PatternSampler.Proofs.Generation.Samples
import PatternSampler.Proofs.Invalidation.Path
import PatternSampler.Proofs.Pattern
import PatternSampler.Random.Words

namespace PatternSampler

/-- The texts that differ from a text in exactly one character. -/
def corruptions (chars : List Char) : Language Char :=
  {w | ∃ before c after x, chars = before ++ c :: after ∧ x ≠ c ∧ w = before ++ x :: after}

namespace Expr

/-! ## Strings with one node broken -/

mutual

/-- The strings that can be generated for an expression of which the node at a place breaks its rule
and no other node does.  There is none if the node does not occur.  The ancestors of the node pass
on what it produces; a repetition among them is not left out. -/
def mutants (slack place : ℕ) : Expr → Language Char
  | text id chars => {w | id = place ∧ w ∈ corruptions chars}
  | set id s =>
    {w | id = place ∧ ∃ c : Char, c.toNat < s.listed.size ∧ s.accepts c = false ∧ w = [c]}
  | concat _ parts => mutantsAll slack place parts
  | alternation _ branches => mutantsAny slack place branches
  | repetition id body bounds same =>
    {w | id = place ∧ (∃ count, bounds.Outside slack count ∧
        w ∈ body.repeated same count (body.samples slack)) ∨
      id ≠ place ∧ ∃ count, (max 1 bounds.least ≤ count ∧ count ≤ max 1 (bounds.ceiling slack)) ∧
        w ∈ body.repeated same count (body.mutants slack place)}
  | group _ body _ => body.mutants slack place
  | backref _ _ => 0

/-- The strings made of one string of each expression, of one of which the node breaks its rule. -/
def mutantsAll (slack place : ℕ) : List Expr → Language Char
  | [] => 0
  | e :: es => e.mutants slack place * samplesAll slack es + e.samples slack * mutantsAll slack place es

/-- The strings of any of the expressions in which the node breaks its rule. -/
def mutantsAny (slack place : ℕ) : List Expr → Language Char
  | [] => 0
  | e :: es => e.mutants slack place + mutantsAny slack place es

end

variable {slack place : ℕ}

theorem mem_mutantsAny {branches : List Expr} {w : List Char} :
    w ∈ mutantsAny slack place branches ↔ ∃ e ∈ branches, w ∈ e.mutants slack place := by
  induction branches with
  | nil =>
    rw [mutantsAny]
    simp
  | cons e es ih =>
    rw [mutantsAny, Language.mem_add, ih]
    simp

/-- The node breaks its rule in one of the expressions, all others keep theirs. -/
theorem mem_mutantsAll {parts : List Expr} {w : List Char} :
    w ∈ mutantsAll slack place parts ↔ ∃ before e after, parts = before ++ e :: after ∧
      w ∈ samplesAll slack before * (e.mutants slack place * samplesAll slack after) := by
  induction parts generalizing w with
  | nil =>
    rw [mutantsAll]
    simp
  | cons e es ih =>
    rw [mutantsAll, Language.mem_add, Language.mem_mul (l := e.samples slack)]
    constructor
    · rintro (here | ⟨first, hfirst, others, hothers, rfl⟩)
      · refine ⟨[], e, es, rfl, ?_⟩
        rwa [samplesAll, one_mul]
      · obtain ⟨before, e', after, rfl, mem⟩ := ih.1 hothers
        refine ⟨e :: before, e', after, rfl, ?_⟩
        rw [samplesAll, mul_assoc]
        exact Language.mem_mul.2 ⟨first, hfirst, others, mem, rfl⟩
    · rintro ⟨before, e', after, eq, mem⟩
      cases before with
      | nil =>
        cases eq
        rw [samplesAll, one_mul] at mem
        exact Or.inl mem
      | cons e₀ before =>
        cases eq
        rw [samplesAll, mul_assoc] at mem
        obtain ⟨first, hfirst, others, hothers, rfl⟩ := Language.mem_mul.1 mem
        exact Or.inr ⟨first, hfirst, others, ih.2 ⟨before, e', after, rfl, hothers⟩, rfl⟩

/-- A character that the set rejects is a candidate of an inverted choice. -/
theorem mem_mutants_set {id : ℕ} {s : CharSet} {w : List Char} :
    w ∈ (set id s).mutants slack place ↔
      id = place ∧ ∃ c : Char, c.toNat ∈ s.candidates true ∧ w = [c] := by
  rw [mutants]
  refine and_congr_right fun _ => exists_congr fun c => ?_
  rw [CharSet.toNat_mem_candidates, and_assoc]
  rfl

/-- Of a part without strings nothing can be repeated, not even once. -/
theorem not_mem_repeated_zero {body : Expr} {same : Bool} {count : ℕ} (pos : 0 < count)
    (w : List Char) : w ∉ body.repeated same count 0 := by
  have plain : w ∉ several 0 count same := by
    cases same with
    | true =>
      rintro (⟨zero, -⟩ | ⟨v, none, -⟩)
      · exact pos.ne' zero
      · exact Language.notMem_zero v none
    | false =>
      show w ∉ (0 : Language Char) ^ count
      rw [zero_pow pos.ne']
      exact Language.notMem_zero w
  cases body with
  | text id chars =>
    cases chars with
    | nil => exact plain
    | cons first others =>
      rintro ⟨u, v, none, -⟩
      exact Language.notMem_zero _ none
  | _ => exact plain

/-- **Where the node does not occur there are no such strings**: the strings of an alternation are
those of the branch that holds the node. -/
theorem mutants_eq_zero {e : Expr} (absent : ∀ f, Part f e → f.id ≠ place) :
    e.mutants slack place = 0 := by
  apply Language.ext
  intro w
  refine iff_of_false ?_ (Language.notMem_zero w)
  induction e using Expr.induct generalizing w with
  | text id chars =>
    rintro ⟨eq, -⟩
    exact absent _ .refl eq
  | set id s =>
    rintro ⟨eq, -⟩
    exact absent _ .refl eq
  | concat id parts ih =>
    rw [mutants, mem_mutantsAll]
    rintro ⟨before, e, after, rfl, mem⟩
    have he : e ∈ before ++ e :: after := by simp
    obtain ⟨_, -, _, mem, -⟩ := Language.mem_mul.1 mem
    obtain ⟨v, mem, -⟩ := Language.mem_mul.1 mem
    exact ih e he (fun f part => absent f (.concat he part)) v mem
  | alternation id branches ih =>
    rw [mutants, mem_mutantsAny]
    rintro ⟨e, he, mem⟩
    exact ih e he (fun f part => absent f (.alternation he part)) w mem
  | repetition id body bounds same ih =>
    have none : body.mutants slack place = 0 := by
      apply Language.ext
      intro v
      exact iff_of_false (ih (fun f part => absent f (.repetition part)) v) (Language.notMem_zero v)
    rw [mutants, none]
    rintro (⟨eq, -⟩ | ⟨-, count, bounds, mem⟩)
    · exact absent _ .refl eq
    · exact not_mem_repeated_zero (lt_of_lt_of_le (by omega) bounds.1) w mem
  | group id body capture ih =>
    rw [mutants]
    exact ih (fun f part => absent f (.group part)) w
  | backref id target ih => exact Language.notMem_zero w

/-! ## Parts that the route goes through -/

/-- The node at a place, which can break its rule and is to do so, is what the expression stands for
or lies below it, on the reserved path; the route leaves alone what lies beside the path. -/
inductive Toward (settings : Settings) (route : Route) (place : ℕ) : Expr → Prop
  | text {chars : List Char} : route.breaks place = true → chars ≠ [] →
      Toward settings route place (text place chars)
  | set {s : CharSet} : route.breaks place = true → Toward settings route place (set place s)
  | outside {body : Expr} {bounds : Bounds} {same : Bool} :
      route.breaks place = true → bounds.Sensible → (0 < bounds.least ∨ bounds.most.isSome) →
      Untouched settings route body →
      Toward settings route place (repetition place body bounds same)
  | concat {id : ℕ} {before after : List Expr} {e : Expr} :
      (∀ f ∈ before, Untouched settings route f) → (∀ f ∈ after, Untouched settings route f) →
      Toward settings route place e → Toward settings route place (concat id (before ++ e :: after))
  | alternation {id : ℕ} {before after : List Expr} {e : Expr} :
      route.path.branch? id = some e.id → (∀ f ∈ before, f.id ≠ e.id) →
      Toward settings route place e →
      Toward settings route place (alternation id (before ++ e :: after))
  | repetition {id : ℕ} {body : Expr} {bounds : Bounds} {same : Bool} :
      id ≠ place → route.breaks id = false → route.path.reserves id = true → bounds.Sensible →
      Toward settings route place body →
      Toward settings route place (repetition id body bounds same)
  | group {id : ℕ} {body : Expr} {capture : Option ℕ} :
      Toward settings route place body → Toward settings route place (group id body capture)

variable {settings : Settings} {route : Route}

/-- The route goes through a row of parts if it goes through one of them and leaves the others
alone. -/
theorem Toward.concat_of_mem {expr : ℕ → Expr} {id child : ℕ} {parts : List ℕ}
    (different : parts.Nodup) (mem : child ∈ parts)
    (beside : ∀ f ∈ parts, f ≠ child → (expr f).Untouched settings route)
    (inner : (expr child).Toward settings route place) :
    (Expr.concat id (parts.map expr)).Toward settings route place := by
  obtain ⟨before, after, rfl⟩ := List.append_of_mem mem
  have fresh : child ∉ before ++ after := (List.nodup_middle.1 different).notMem
  rw [List.map_append, List.map_cons]
  refine .concat (fun e he => ?_) (fun e he => ?_) inner
  · obtain ⟨f, hf, rfl⟩ := List.mem_map.1 he
    have ne : f ≠ child := fun eq => fresh (eq ▸ List.mem_append_left _ hf)
    exact beside f (List.mem_append_left _ hf) ne
  · obtain ⟨f, hf, rfl⟩ := List.mem_map.1 he
    have ne : f ≠ child := fun eq => fresh (eq ▸ List.mem_append_right _ hf)
    exact beside f (List.mem_append_right _ (List.mem_cons_of_mem _ hf)) ne

/-- The route goes through an alternation if it takes a branch and goes through that one. -/
theorem Toward.alternation_of_mem {expr : ℕ → Expr} {id child : ℕ} {branches : List ℕ}
    (own : ∀ f ∈ branches, (expr f).id = f) (mem : child ∈ branches)
    (taken : route.path.branch? id = some child)
    (inner : (expr child).Toward settings route place) :
    (Expr.alternation id (branches.map expr)).Toward settings route place := by
  obtain ⟨before, after, rfl, fresh⟩ := List.eq_append_cons_of_mem mem
  rw [List.map_append, List.map_cons]
  refine .alternation (by rw [own child mem, taken]) (fun e he => ?_) inner
  obtain ⟨f, hf, rfl⟩ := List.mem_map.1 he
  rw [own child mem, own f (List.mem_append_left _ hf)]
  exact fun eq => fresh (eq ▸ hf)

/-! ## Generating through such parts -/

variable {σ : Type} [RandomSource σ] {g g' : GenerationState σ} {w : List Char}

/-- A corrupted text has one character replaced. -/
theorem mem_corruptions {chars : List Char} (ne : chars ≠ [])
    (run : corruptText chars g = .ok w g') : w ∈ corruptions chars := by
  unfold corruptText at run
  rw [if_neg (by simpa using ne)] at run
  obtain ⟨spot, g₁, drawn, run⟩ := bind_eq_ok_iff.1 run
  obtain ⟨other, g₂, picked, run⟩ := bind_eq_ok_iff.1 run
  cases run
  have lt : spot < chars.length :=
    Span.mem_below.1 ((draw_eq_ok drawn).2 (List.length_pos_iff.2 ne))
  refine ⟨chars.take spot, chars[spot], chars.drop (spot + 1), other, ?_, ?_, ?_⟩
  · rw [List.getElem_cons_drop, List.take_append_drop]
  · have candidate := (pick_eq_ok picked).1
    rw [List.getD_eq_getElem chars default lt] at candidate
    exact CharSet.ne_of_mem_candidates_allBut candidate
  · rw [List.set_eq_take_append_cons_drop, if_pos lt]

/-- Expressions one after the other, through one of which the route goes. -/
theorem mem_mutants_concat {before after : List Expr} {e : Expr}
    (first : ∀ f ∈ before, Untouched settings route f)
    (last : ∀ f ∈ after, Untouched settings route f)
    (each : ∀ {g g' : GenerationState σ} {w : List Char}, e.generate settings route g = .ok w g' →
      w ∈ e.mutants settings.slack place)
    (run : generateAll settings route (before ++ e :: after) g = .ok w g') :
    w ∈ mutantsAll settings.slack place (before ++ e :: after) := by
  induction before generalizing g w with
  | nil =>
    rw [List.nil_append, generateAll] at run
    obtain ⟨text, g₁, run₁, run⟩ := bind_eq_ok_iff.1 run
    obtain ⟨others, g₂, run₂, run⟩ := bind_eq_ok_iff.1 run
    cases run
    have rest := mem_samplesAll (fun f hf {_ _ _} run => mem_samples (last f hf) run) run₂
    exact Or.inl (Language.mem_mul.2 ⟨text, each run₁, others, rest, rfl⟩)
  | cons f before ih =>
    rw [List.cons_append, generateAll] at run
    obtain ⟨text, g₁, run₁, run⟩ := bind_eq_ok_iff.1 run
    obtain ⟨others, g₂, run₂, run⟩ := bind_eq_ok_iff.1 run
    cases run
    have head := mem_samples (first f List.mem_cons_self) run₁
    have rest := ih (fun f hf => first f (List.mem_cons_of_mem _ hf)) run₂
    exact Or.inr (Language.mem_mul.2 ⟨text, head, others, rest, rfl⟩)

/-- The branch with a given place is found and generated. -/
theorem generateNth_findIdx {before after : List Expr} {e : Expr}
    (others : ∀ f ∈ before, f.id ≠ e.id) :
    (generateNth settings route (before ++ e :: after)
      ((before ++ e :: after).findIdx (·.id == e.id)) : Generating σ (List Char)) =
      e.generate settings route := by
  induction before with
  | nil => rw [List.nil_append, List.findIdx_cons, beq_self_eq_true, cond_true, generateNth]
  | cons f before ih =>
    have skip : (f.id == e.id) = false := beq_eq_false_iff_ne.2 (others f List.mem_cons_self)
    rw [List.cons_append, List.findIdx_cons, skip, cond_false, generateNth]
    exact ih fun f hf => others f (List.mem_cons_of_mem _ hf)

theorem keepsLength_mutants (slack place : ℕ) (body : Expr) :
    KeepsLength (body.mutants slack place) body := by
  rintro id chars rfl w mem
  rw [mutants] at mem
  obtain ⟨-, before, c, after, x, rfl, -, rfl⟩ := mem
  simp

/-- **What is generated has the node broken and nothing else**, if the route goes through the
expression. -/
theorem mem_mutants {e : Expr} (toward : e.Toward settings route place)
    (run : e.generate settings route g = .ok w g') : w ∈ e.mutants settings.slack place := by
  induction toward generalizing g g' w with
  | text breaks ne =>
    rw [generate, if_pos breaks] at run
    exact ⟨rfl, mem_corruptions ne run⟩
  | set breaks =>
    rw [generate, breaks] at run
    obtain ⟨c, g₁, run₁, run⟩ := bind_eq_ok_iff.1 run
    cases run
    exact mem_mutants_set.2 ⟨rfl, c, (pick_eq_ok run₁).1, rfl⟩
  | @outside body bounds same breaks sensible some untouched =>
    rw [generate, breaks] at run
    obtain ⟨count, g₁, drawn, run⟩ := bind_eq_ok_iff.1 run
    have outside := (drawInvalid_eq_ok sensible some drawn).1
    have times := generateTimes_mem (fun run => mem_samples untouched run)
      (keepsLength_samples _ body) run
    exact Or.inl ⟨rfl, count, outside, times⟩
  | concat first last _ ih =>
    rw [generate] at run
    rw [mutants]
    exact mem_mutants_concat first last ih run
  | @alternation id before after e branch others _ ih =>
    rw [generate, branch] at run
    simp only [generateNth_findIdx others] at run
    exact mem_mutantsAny.2 ⟨e, by simp, ih run⟩
  | @repetition id body bounds same ne spared reserved sensible _ ih =>
    rw [generate, spared, reserved] at run
    obtain ⟨count, g₁, drawn, run⟩ := bind_eq_ok_iff.1 run
    have within := (drawValid_eq_ok drawn).1.of_reserved sensible.representable
    have times := generateTimes_mem (fun run => ih run) (keepsLength_mutants _ place body) run
    exact Or.inr ⟨ne, count, within, times⟩
  | group _ ih =>
    rw [generate] at run
    obtain ⟨text, g₁, run₁, run⟩ := bind_eq_ok_iff.1 run
    cases run
    exact ih run₁

end Expr

/-! ## Trees -/

namespace Tree

variable {t : Tree} {place : ℕ} {settings : Settings}

theorem id_expr (ordered : t.Ordered) {id : ℕ} (lt : id < t.size) : (t.expr id).id = id := by
  obtain ⟨shape, look⟩ := exists_shape? lt
  rw [expr_eq ordered look]
  cases shape <;> rfl

theorem exists_shape_of_isInvalidatable {id : ℕ} (eligible : t.isInvalidatable id = true) :
    ∃ shape, t.shape? id = some shape ∧ shape.isInvalidatable = true := by
  rcases look : t.shape? id with _ | shape
  · rw [isInvalidatable, look] at eligible
    cases eligible
  · rw [isInvalidatable, look] at eligible
    exact ⟨shape, rfl, eligible⟩

theorem breaks_toward (t : Tree) (place : ℕ) : (Route.toward t place).breaks place = true :=
  beq_self_eq_true (some place)

/-- The route to a node leaves alone all nodes that do not lead to it. -/
theorem aside_toward (ordered : t.Ordered) (linked : t.Linked)
    (plain : ∀ id target, t.shape? id ≠ some (.backref target)) :
    t.Aside settings (Route.toward t place) {id | id < t.size ∧ ¬ t.Leads id place} where
  exist := fun _ mem => mem.1
  closed := by
    rintro id ⟨lt, off⟩ shape look r hr
    have owns : t.Owns id r := by
      refine ⟨shape, look, ?_⟩
      cases shape with
      | backref target => exact absurd look (plain id target)
      | text | set | concat | alternation | repetition | group => exact hr
    exact ⟨(owns.lt ordered).trans lt, fun leads => off (.head owns leads)⟩
  spared := by
    rintro id ⟨-, off⟩
    refine beq_eq_false_iff_ne.2 fun eq => off ?_
    rw [Option.some.inj eq]
    exact .refl
  free := by
    rintro id ⟨-, off⟩
    by_contra some
    obtain ⟨child, branch⟩ := Option.ne_none_iff_exists'.1 some
    obtain ⟨owns, leads⟩ := (branch?_reserve ordered linked).1 branch
    exact off (.head owns leads)
  mode := Or.inr fun id _ => plain id

section Toward

variable (well : t.WellFormed) (linked : t.Linked)
  (regular : ∀ id shape, t.shape? id = some shape → shape.Regular)
  (plain : ∀ id target, t.shape? id ≠ some (.backref target))

include well linked regular plain in
theorem untouched_beside {id : ℕ} (lt : id < t.size) (off : ¬ t.Leads id place) :
    (t.expr id).Untouched settings (Route.toward t place) :=
  Tree.untouched well regular (aside_toward well.ordered linked plain) ⟨lt, off⟩

include well linked regular plain in
/-- The route to a repetition leaves its body alone. -/
theorem untouched_body {body : ℕ} {bounds : Bounds} {same : Bool}
    (look : t.shape? place = some (.repetition body bounds same)) :
    (t.expr body).Untouched settings (Route.toward t place) := by
  have owns : t.Owns place body := ⟨_, look, List.mem_cons_self⟩
  have lt := owns.lt well.ordered
  have off : ¬ t.Leads body place := fun leads =>
    absurd (Leads.le well.ordered leads) (not_le.2 lt)
  exact untouched_beside well linked regular plain (lt.trans owns.lt_size) off

include well linked regular plain in
/-- The node that is to break its rule. -/
theorem toward_self (eligible : t.isInvalidatable place = true) :
    (t.expr place).Toward settings (Route.toward t place) place := by
  have breaks := breaks_toward t place
  obtain ⟨shape, look, can⟩ := exists_shape_of_isInvalidatable eligible
  rw [expr_eq well.ordered look]
  cases shape with
  | text chars => exact .text breaks (by simpa [Shape.isInvalidatable] using can)
  | set s => exact .set breaks
  | repetition body bounds same =>
    have some : 0 < bounds.least ∨ bounds.most.isSome := by
      simpa [Shape.isInvalidatable] using can
    exact .outside breaks (regular place _ look) some
      (untouched_body well linked regular plain look)
  | concat | alternation | group | backref => cases can

include well linked regular plain in
/-- **The route to a node goes through the expressions of its ancestors.** -/
theorem toward (nodup : ∀ id shape, t.shape? id = some shape → shape.children.Nodup)
    (eligible : t.isInvalidatable place = true) {id : ℕ} (leads : t.Leads id place) :
    (t.expr id).Toward settings (Route.toward t place) place := by
  induction id using Nat.strong_induction_on with
  | _ id ih =>
    rcases Relation.ReflTransGen.cases_head leads with rfl | ⟨child, owns, below⟩
    · exact toward_self well linked regular plain eligible
    have inner := ih child (owns.lt well.ordered) below
    have branch : (Route.toward t place).path.branch? id = some child :=
      (branch?_reserve well.ordered linked).2 ⟨owns, below⟩
    obtain ⟨shape, look, mem⟩ := owns
    -- the other children of the node lead elsewhere
    have beside (f : ℕ) (hf : f ∈ shape.children) (ne : f ≠ child) :
        (t.expr f).Untouched settings (Route.toward t place) := by
      have owns : t.Owns id f := ⟨shape, look, hf⟩
      refine untouched_beside well linked regular plain
        ((owns.lt well.ordered).trans owns.lt_size) fun leads => ne ?_
      exact Leads.unique well.ordered linked owns leads ⟨shape, look, mem⟩ below
    have sensible := regular id shape look
    rw [expr_eq well.ordered look]
    cases shape with
    | text | set | backref => cases mem
    | concat parts => exact .concat_of_mem (nodup id _ look) mem beside inner
    | alternation branches =>
      refine .alternation_of_mem (fun f hf => ?_) mem branch inner
      have owns : t.Owns id f := ⟨_, look, hf⟩
      exact id_expr well.ordered ((owns.lt well.ordered).trans owns.lt_size)
    | repetition body bounds same =>
      obtain rfl := List.mem_singleton.1 mem
      have ne : id ≠ place := by
        rintro rfl
        have owns : t.Owns id child := ⟨_, look, mem⟩
        exact absurd (Leads.le well.ordered below) (not_le.2 (owns.lt well.ordered))
      have spared : (Route.toward t place).breaks id = false :=
        beq_eq_false_iff_ne.2 fun eq => ne (Option.some.inj eq).symm
      have reserved : (Route.toward t place).path.reserves id = true := by
        rw [ReservedPath.reserves, branch]
        rfl
      exact .repetition ne spared reserved sensible inner
    | group body name capture =>
      obtain rfl := List.mem_singleton.1 mem
      exact .group inner

end Toward

end Tree

/-! ## Patterns -/

namespace Compiled

variable {source : String} {c : Compiled} {σ : Type} [RandomSource σ]

/-- The node of the whole pattern leads to every node. -/
theorem leads_root (h : ofPattern? source = .ok c) {id : ℕ} (lt : id < c.tree.size) :
    c.tree.Leads c.root id := by
  rw [ofPattern?_size h] at lt
  exact (ofPattern?_block h).leads (Nat.zero_le id) (Nat.le_of_lt_succ lt)

/-- **A string that is meant not to match has one node broken.**  Whatever node is chosen to break
its rule, in a string that is generated for a pattern without backreferences that node does so, its
ancestors pass on what it produced, and every other node keeps its rule. -/
theorem mem_mutants_of_sample (h : ofPattern? source = .ok c)
    (plain : ∀ id target, c.tree.shape? id ≠ some (.backref target)) {place : ℕ}
    (eligible : c.tree.isInvalidatable place = true) {settings : Settings} {g g' : σ}
    {chars : List Char}
    (run : c.expr.sample settings (Route.toward c.tree place) g = .ok chars g') :
    chars ∈ c.expr.mutants settings.slack place := by
  have lt : place < c.tree.size := by
    obtain ⟨shape, look⟩ : ∃ shape, c.tree.shape? place = some shape := by
      by_contra none
      rw [Tree.isInvalidatable, Option.eq_none_iff_forall_ne_some.2 fun shape look =>
        none ⟨shape, look⟩] at eligible
      cases eligible
    exact Tree.lt_size_of_shape? look
  have nodup (id : ℕ) (shape : Shape) (look : c.tree.shape? id = some shape) :
      shape.children.Nodup := by
    have le : id ≤ c.root := by
      have lt := Tree.lt_size_of_shape? look
      rw [ofPattern?_size h] at lt
      exact Nat.le_of_lt_succ lt
    refine (ofPattern?_block h).nodup (Nat.zero_le id) le ?_
    rw [Tree.children?, look]
    rfl
  have toward : c.expr.Toward settings (Route.toward c.tree place) place :=
    Tree.toward (ofPattern?_wellFormed h) (ofPattern?_linked h)
      (fun _ _ => ofPattern?_regular h) plain nodup eligible (leads_root h lt)
  unfold Expr.sample at run
  split at run
  · next text state generated =>
    cases run
    exact Expr.mem_mutants toward generated
  · cases run

/-- A set in an optional part: the part is not left out, and the set gives a character that it
rejects. -/
theorem mem_mutants_of_sample_optional : ∃ c, ofPattern? "(?:a[bc])?d" = .ok c ∧
    c.tree.isInvalidatable 1 = true ∧ ['a', '\x00', 'd'] ∈ c.expr.mutants 10 1 := by
  have run : (ofPattern? "(?:a[bc])?d").toOption.map (fun c => (c.tree.isInvalidatable 1,
      c.tree.nodes.all (fun node => node.shape.references = node.shape.children),
      match c.expr.sample {} (Route.toward c.tree 1) (WordStream.ofWords #[0]) with
      | .ok chars _ => some chars
      | .error _ _ => none)) = some (true, true, some ['a', '\x00', 'd']) := by
    decide +kernel
  rcases read : ofPattern? "(?:a[bc])?d" with _ | c
  · rw [read] at run
    cases run
  rw [read] at run
  have all := Option.some.inj run
  have eligible : c.tree.isInvalidatable 1 = true := congrArg (fun r => r.1) all
  have own : c.tree.nodes.all (fun node => node.shape.references = node.shape.children) = true :=
    congrArg (fun r => r.2.1) all
  have sampled := congrArg (fun r => r.2.2) all
  have plain (id target : ℕ) : c.tree.shape? id ≠ some (.backref target) := by
    intro look
    have none := Tree.shape_of_all (f := fun shape => shape.references = shape.children) own look
    cases of_decide_eq_true none
  dsimp only at sampled
  split at sampled
  · next chars g' generated =>
    cases sampled
    exact ⟨c, rfl, eligible, mem_mutants_of_sample read plain eligible generated⟩
  · cases sampled

end Compiled

end PatternSampler
