/-
# What a generator can produce

Each expression has a language of strings that can be generated for it while no node breaks its
rule: characters come from the table of their set, and repetitions are carried out as often as their
ceiling admits.  Nothing else is generated.

* `Expr.repeated` : the strings of a repeated part, for a number of times.
* `Expr.samples` : the strings of an expression.
* `Expr.Untouched` : the route neither breaks nor reserves anything in an expression.
* `Expr.mem_samples` : what is generated for such an expression is one of its strings.
* `Tree.untouched` : the route leaves the expression of a node alone if it leaves all nodes alone
  that can be reached from it.
-/
import PatternSampler.Proofs.Generation.Draws
import PatternSampler.Proofs.Tree.Unfold

namespace PatternSampler

namespace Expr

/-! ## Strings of expressions -/

/-- Strings of a language put together, `count` of them, chosen independently unless they are all to
be the same. -/
def several (own : Language Char) (count : ℕ) : (same : Bool) → Language Char
  | false => own ^ count
  | true => {w | count = 0 ∧ w = [] ∨ ∃ v ∈ own, w = (List.replicate count v).flatten}

/-- The strings of a part that is repeated `count` times, if `own` are those of the part.  Of a text
only the last character is repeated, behind what stands before it. -/
def repeated (same : Bool) (count : ℕ) (own : Language Char) : Expr → Language Char
  | text _ (_ :: _) => {w | ∃ u v, u ++ [v] ∈ own ∧ w = u ++ List.replicate count v}
  | _ => several own count same

mutual

/-- The strings that can be generated for an expression of which no node breaks its rule.  A
backreference stands for any string of its target. -/
def samples (slack : ℕ) : Expr → Language Char
  | text _ chars => {chars}
  | set _ s => {w | ∃ c : Char, c.toNat < s.listed.size ∧ s.accepts c = true ∧ w = [c]}
  | concat _ parts => samplesAll slack parts
  | alternation _ branches => samplesAny slack branches
  | repetition _ body bounds same =>
    {w | ∃ count, (bounds.least ≤ count ∧ count ≤ bounds.ceiling slack) ∧
      w ∈ body.repeated same count (body.samples slack)}
  | group _ body _ => body.samples slack
  | backref _ target => target.samples slack

/-- The strings made of one string of each expression. -/
def samplesAll (slack : ℕ) : List Expr → Language Char
  | [] => 1
  | e :: es => e.samples slack * samplesAll slack es

/-- The strings of any of the expressions. -/
def samplesAny (slack : ℕ) : List Expr → Language Char
  | [] => 0
  | e :: es => e.samples slack + samplesAny slack es

end

theorem mem_samplesAny {slack : ℕ} {branches : List Expr} {w : List Char} :
    w ∈ samplesAny slack branches ↔ ∃ e ∈ branches, w ∈ e.samples slack := by
  induction branches with
  | nil =>
    rw [samplesAny]
    simp
  | cons e es ih =>
    rw [samplesAny, Language.mem_add, ih]
    simp

/-- The characters that can be chosen from a set are its candidates. -/
theorem mem_samples_set {slack id : ℕ} {s : CharSet} {w : List Char} :
    w ∈ (set id s).samples slack ↔ ∃ c : Char, c.toNat ∈ s.candidates false ∧ w = [c] := by
  rw [samples]
  refine exists_congr fun c => ?_
  rw [CharSet.toNat_mem_candidates, and_assoc]
  rfl

/-! ## Parts that the route leaves alone -/

/-- The route breaks and reserves no node of an expression, targets of backreferences included, and
backreferences generate their targets anew.  All shapes are regular and every alternation has a
branch. -/
inductive Untouched (settings : Settings) (route : Route) : Expr → Prop
  | text {id : ℕ} {chars : List Char} :
      route.breaks id = false → Untouched settings route (text id chars)
  | set {id : ℕ} {s : CharSet} :
      route.breaks id = false → s.Counted → Untouched settings route (set id s)
  | concat {id : ℕ} {parts : List Expr} :
      (∀ e ∈ parts, Untouched settings route e) → Untouched settings route (concat id parts)
  | alternation {id : ℕ} {branches : List Expr} :
      route.path.branch? id = none → branches ≠ [] →
      (∀ e ∈ branches, Untouched settings route e) →
      Untouched settings route (alternation id branches)
  | repetition {id : ℕ} {body : Expr} {bounds : Bounds} {same : Bool} :
      route.breaks id = false → route.path.reserves id = false → bounds.Sensible →
      Untouched settings route body → Untouched settings route (repetition id body bounds same)
  | group {id : ℕ} {body : Expr} {capture : Option ℕ} :
      Untouched settings route body → Untouched settings route (group id body capture)
  | backref {id : ℕ} {target : Expr} :
      settings.backrefs = .regenerate → Untouched settings route target →
      Untouched settings route (backref id target)

/-! ## Repetition -/

variable {σ : Type} {own : Language Char} {settings : Settings} {route : Route}

/-- Texts that are generated one by one and put together. -/
theorem exists_of_collect {action : Generating σ (List Char)}
    (each : ∀ {g g' : GenerationState σ} {w : List Char}, action g = .ok w g' → w ∈ own)
    {count : ℕ} {reversed w : List Char} {g g' : GenerationState σ}
    (run : Generating.collect action count reversed g = .ok w g') :
    ∃ v ∈ own ^ count, w = reversed.reverse ++ v := by
  induction count generalizing reversed g with
  | zero =>
    cases run
    exact ⟨[], by rw [pow_zero]; exact (Language.mem_one _).2 rfl, (List.append_nil _).symm⟩
  | succ count ih =>
    obtain ⟨first, g₁, run₁, run⟩ := bind_eq_ok_iff.1 run
    obtain ⟨v, mem, rfl⟩ := ih run
    refine ⟨first ++ v, ?_, ?_⟩
    · rw [pow_succ']
      exact Language.mem_mul.2 ⟨first, each run₁, v, mem, rfl⟩
    · rw [List.reverseAux_eq, List.reverse_append, List.reverse_reverse, List.append_assoc]

/-- A text keeps its length, whatever is generated for it. -/
def KeepsLength (own : Language Char) (body : Expr) : Prop :=
  ∀ id chars, body = text id chars → ∀ w ∈ own, w.length = chars.length

theorem repeatLast_concat (count : ℕ) (u : List Char) (v : Char) :
    repeatLast count (u ++ [v]) = u ++ List.replicate count v := by
  rw [repeatLast_eq]
  simp

/-- Of a text that is empty nothing can be repeated. -/
theorem nil_mem_several {count : ℕ} {same : Bool} (mem : [] ∈ own) : [] ∈ several own count same := by
  cases same with
  | true => exact Or.inr ⟨[], mem, by simp⟩
  | false =>
    show [] ∈ own ^ count
    induction count with
    | zero =>
      rw [pow_zero]
      exact (Language.mem_one _).2 rfl
    | succ count ih =>
      rw [pow_succ]
      exact Language.mem_mul.2 ⟨[], ih, [], mem, rfl⟩

/-- **Carrying out a repetition** gives a string of the repeated part, if carrying out its body
gives one of the body. -/
theorem generateTimes_mem {body : Expr} {action : Generating σ (List Char)}
    (each : ∀ {g g' : GenerationState σ} {w : List Char}, action g = .ok w g' → w ∈ own)
    (length : KeepsLength own body) {same : Bool} {count : ℕ} {w : List Char}
    {g g' : GenerationState σ}
    (run : generateTimes body.isText same count action g = .ok w g') :
    w ∈ body.repeated same count own := by
  have plain (run : generateTimes false same count action g = .ok w g') :
      w ∈ several own count same := by
    unfold generateTimes at run
    rw [if_neg Bool.false_ne_true] at run
    by_cases zero : count = 0
    · rw [if_pos zero] at run
      cases run
      cases same with
      | true => exact Or.inl ⟨zero, rfl⟩
      | false =>
        rw [zero]
        exact (Language.mem_one _).2 rfl
    rw [if_neg zero] at run
    cases same with
    | true =>
      rw [if_pos rfl] at run
      obtain ⟨v, g₁, run₁, run⟩ := bind_eq_ok_iff.1 run
      cases run
      exact Or.inr ⟨v, each run₁, repeatText_eq count v⟩
    | false =>
      rw [if_neg Bool.false_ne_true] at run
      obtain ⟨v, mem, rfl⟩ := exists_of_collect each run
      exact mem
  cases body with
  | text id chars =>
    unfold isText generateTimes at run
    rw [if_pos rfl] at run
    obtain ⟨v, g₁, run₁, run⟩ := bind_eq_ok_iff.1 run
    cases run
    have mem := each run₁
    have same_length := length id chars rfl v mem
    rcases v.eq_nil_or_concat' with rfl | ⟨u, last, rfl⟩
    · obtain rfl := List.length_eq_zero_iff.1 same_length.symm
      exact nil_mem_several mem
    · rw [repeatLast_concat]
      cases chars with
      | nil => simp at same_length
      | cons first others => exact ⟨u, last, mem, rfl⟩
  | _ => exact plain run

/-! ## Generated strings -/

variable [RandomSource σ]

/-- What is generated for expressions one after the other. -/
theorem mem_samplesAll {parts : List Expr} {w : List Char} {g g' : GenerationState σ}
    (each : ∀ e ∈ parts, ∀ {g g' : GenerationState σ} {w : List Char},
      e.generate settings route g = .ok w g' → w ∈ e.samples settings.slack)
    (run : generateAll settings route parts g = .ok w g') :
    w ∈ samplesAll settings.slack parts := by
  induction parts generalizing g w with
  | nil =>
    rw [generateAll] at run
    cases run
    exact (Language.mem_one _).2 rfl
  | cons e es ih =>
    rw [generateAll] at run
    obtain ⟨first, g₁, run₁, run⟩ := bind_eq_ok_iff.1 run
    obtain ⟨others, g₂, run₂, run⟩ := bind_eq_ok_iff.1 run
    cases run
    exact Language.mem_mul.2 ⟨first, each e List.mem_cons_self run₁, others,
      ih (fun e he => each e (List.mem_cons_of_mem _ he)) run₂, rfl⟩

theorem keepsLength_samples (slack : ℕ) (body : Expr) : KeepsLength (body.samples slack) body := by
  rintro id chars rfl w mem
  rw [samples] at mem
  rw [show w = chars from mem]

/-- **What is generated is one of the strings of the expression**, if the route leaves it alone. -/
theorem mem_samples {e : Expr} (untouched : e.Untouched settings route) {w : List Char}
    {g g' : GenerationState σ} (run : e.generate settings route g = .ok w g') :
    w ∈ e.samples settings.slack := by
  induction e using Expr.induct generalizing g g' w with
  | text id chars =>
    cases untouched with
    | text spared =>
      rw [generate, if_neg (Bool.eq_false_iff.1 spared)] at run
      cases run
      exact Set.mem_singleton _
  | set id s =>
    cases untouched with
    | set spared counted =>
      rw [generate, spared] at run
      obtain ⟨c, g₁, run₁, run⟩ := bind_eq_ok_iff.1 run
      cases run
      exact mem_samples_set.2 ⟨c, (pick_eq_ok run₁).1, rfl⟩
  | concat id parts ih =>
    cases untouched with
    | concat all =>
      rw [generate] at run
      exact mem_samplesAll (fun e he {_ _ _} run => ih e he (all e he) run) run
  | alternation id branches ih =>
    cases untouched with
    | alternation free ne all =>
      rw [generate, free] at run
      obtain ⟨n, g₁, drawn, run⟩ := bind_eq_ok_iff.1 run
      have lt := Span.mem_below.1 ((draw_eq_ok drawn).2 (List.length_pos_iff.2 ne))
      obtain ⟨e, he, run⟩ := exists_generateNth lt run
      exact mem_samplesAny.2 ⟨e, he, ih e he (all e he) run⟩
  | repetition id body bounds same ih =>
    cases untouched with
    | repetition spared free sensible inner =>
      rw [generate, spared, free] at run
      obtain ⟨count, g₁, drawn, run⟩ := bind_eq_ok_iff.1 run
      have within := (drawValid_eq_ok drawn).1
      have times := generateTimes_mem (fun run => ih inner run) (keepsLength_samples _ body) run
      exact ⟨count, within.of_representable sensible.representable, times⟩
  | group id body capture ih =>
    cases untouched with
    | group inner =>
      rw [generate] at run
      obtain ⟨text, g₁, run₁, run⟩ := bind_eq_ok_iff.1 run
      cases run
      exact ih inner run₁
  | backref id target ih =>
    cases untouched with
    | backref mode inner =>
      rw [generate, mode] at run
      exact ih inner run

end Expr

/-! ## Trees -/

/-- Nodes that the route leaves alone: none of them is broken or reserved, a node that one of them
refers to is among them, and backreferences among them generate their targets anew. -/
structure Tree.Aside (t : Tree) (settings : Settings) (route : Route) (nodes : Set ℕ) : Prop where
  exist : ∀ id ∈ nodes, id < t.size
  closed : ∀ id ∈ nodes, ∀ shape, t.shape? id = some shape → ∀ r ∈ shape.references, r ∈ nodes
  spared : ∀ id ∈ nodes, route.breaks id = false
  free : ∀ id ∈ nodes, route.path.branch? id = none
  mode : settings.backrefs = .regenerate ∨
    ∀ id ∈ nodes, ∀ target, t.shape? id ≠ some (.backref target)

/-- **The route leaves the expression of a node alone** if the node is one of those that it leaves
alone. -/
theorem Tree.untouched {t : Tree} (well : t.WellFormed)
    (regular : ∀ id shape, t.shape? id = some shape → shape.Regular) {settings : Settings}
    {route : Route} {nodes : Set ℕ} (aside : t.Aside settings route nodes) {id : ℕ}
    (mem : id ∈ nodes) : (t.expr id).Untouched settings route := by
  induction id using Nat.strong_induction_on with
  | _ id ih =>
    have lt := aside.exist id mem
    obtain ⟨shape, look⟩ := exists_shape? lt
    have earlier := well.ordered id shape look
    have sound := regular id shape look
    have inner (r : ℕ) (hr : r ∈ shape.references) : (t.expr r).Untouched settings route :=
      ih r (earlier r hr) (aside.closed id mem shape look r hr)
    rw [expr_eq well.ordered look]
    cases shape with
    | text chars => exact .text (aside.spared id mem)
    | set s => exact .set (aside.spared id mem) sound
    | concat parts =>
      refine .concat fun e he => ?_
      obtain ⟨r, hr, rfl⟩ := List.mem_map.1 he
      exact inner r hr
    | alternation branches =>
      have ne : branches.map t.expr ≠ [] := by simpa using well.branches id branches look
      refine .alternation (aside.free id mem) ne fun e he => ?_
      obtain ⟨r, hr, rfl⟩ := List.mem_map.1 he
      exact inner r hr
    | repetition body bounds same =>
      have free : route.path.reserves id = false := by
        rw [ReservedPath.reserves, aside.free id mem]
        rfl
      exact .repetition (aside.spared id mem) free sound (inner body List.mem_cons_self)
    | group body name capture => exact .group (inner body List.mem_cons_self)
    | backref target =>
      have mode := aside.mode.resolve_right fun plain => plain id mem target look
      exact .backref mode (inner target List.mem_cons_self)

end PatternSampler
