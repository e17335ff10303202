/-
# Expressions that read something

Some expressions cannot match without reading a character.  A repetition of such an expression goes
on with every occurrence, so none of its occurrences is one that a repetition without an upper bound
refuses.

* `Expr.fills` tells such expressions, as far as their shape shows it.
* `Expr.Matches.goesOn` : they do read something wherever they match.
-/
import PatternSampler.Proofs.Matching.Basic

namespace PatternSampler

namespace Expr

mutual

/-- Whether an expression stands for at least one character in any case.  The text of a
backreference may be empty. -/
def fills : Expr → Bool
  | text _ chars => !chars.isEmpty
  | set _ _ => true
  | concat _ parts => fillsSome parts
  | alternation _ branches => fillsEach branches
  | repetition _ body bounds _ => 0 < bounds.least && body.fills
  | group _ body _ => body.fills
  | backref _ _ => false

/-- Whether one of several expressions stands for at least one character. -/
def fillsSome : List Expr → Bool
  | [] => false
  | e :: es => e.fills || fillsSome es

/-- Whether each of several expressions stands for at least one character. -/
def fillsEach : List Expr → Bool
  | [] => true
  | e :: es => e.fills && fillsEach es

end

theorem fills_of_fillsEach {es : List Expr} (each : fillsEach es = true) {e : Expr} (he : e ∈ es) :
    e.fills = true := by
  induction es with
  | nil => cases he
  | cons first others ih =>
    rw [fillsEach, Bool.and_eq_true] at each
    rcases List.mem_cons.1 he with rfl | he
    · exact each.1
    · exact ih each.2 he

/-- Of a text that is repeated there is a last character exactly if it is not empty. -/
theorem fills_unit (e : Expr) : e.unit.fills = e.fills := by
  cases e with
  | text id chars => cases chars using List.reverseRecOn <;> simp [unit, fills]
  | _ => rfl

end Expr

/-- The position does not fall, and grows if so it is said. -/
def GoesOn (grows : Bool) (s t : Place) : Prop :=
  s.pos + grows.toNat ≤ t.pos

namespace GoesOn

variable {grows grows' : Bool} {s t u : Place}

theorem trans (first : GoesOn grows s t) (second : GoesOn grows' t u) :
    GoesOn (grows || grows') s u := by
  have either : (grows || grows').toNat ≤ grows.toNat + grows'.toNat := by
    cases grows <;> cases grows' <;> decide
  have first' : s.pos + grows.toNat ≤ t.pos := first
  have second' : t.pos + grows'.toNat ≤ u.pos := second
  show s.pos + (grows || grows').toNat ≤ u.pos
  omega

theorem weaken (h : GoesOn grows s t) : GoesOn false s t :=
  (Nat.add_le_add_left (Nat.zero_le _) _).trans h

theorem lt (h : GoesOn true s t) : s.pos < t.pos := h

theorem reads {input chars : List Char} (h : Reads input chars s t) :
    GoesOn (!chars.isEmpty) s t := by
  obtain ⟨-, rfl⟩ := h
  apply Nat.add_le_add_left
  cases chars with
  | nil => exact le_rfl
  | cons c cs => exact Nat.succ_le_succ (Nat.zero_le _)

/-- What several expressions read one after the other. -/
theorem inOrder {R : Expr → Passage} {es : List Expr}
    (each : ∀ e ∈ es, ∀ {s t : Place}, R e s t → GoesOn e.fills s t) (h : InOrder R es s t) :
    GoesOn (Expr.fillsSome es) s t := by
  induction h with
  | nil s => exact le_rfl
  | cons first _ ih =>
    rw [Expr.fillsSome]
    exact (each _ List.mem_cons_self first).trans
      (ih fun e he => each e (List.mem_cons_of_mem _ he))

/-- What an expression reads a number of times. -/
theorem replicate {R : Expr → Passage} {e : Expr}
    (unit : ∀ {s t : Place}, R e s t → GoesOn e.fills s t) {count : ℕ}
    (h : InOrder R (List.replicate count e) s t) : GoesOn (0 < count && e.fills) s t := by
  have all : GoesOn (Expr.fillsSome (List.replicate count e)) s t :=
    inOrder (fun e' he {_ _} run => by
      obtain rfl := List.eq_of_mem_replicate he
      exact unit run) h
  cases count with
  | zero => exact all.weaken
  | succ count =>
    rw [List.replicate_succ, Expr.fillsSome] at all
    by_cases fills : e.fills = true
    · rw [fills] at all ⊢
      exact all
    · rw [Bool.eq_false_iff.2 fills, Bool.and_false]
      exact all.weaken

end GoesOn

/-- **An expression that fills reads something** wherever it matches, and no other goes back. -/
theorem Expr.Matches.goesOn {input : List Char} {e : Expr} {s t : Place}
    (run : e.Matches input s t) : GoesOn e.fills s t := by
  induction e using Expr.unit_induct generalizing s t with
  | text id chars =>
    cases run with
    | text reads => exact .reads reads
  | set id set =>
    cases run with
    | set _ reads => exact .reads reads
  | concat id parts ih =>
    cases run with
    | concat runs => exact .inOrder (fun e he {_ _} => ih e he) runs
  | alternation id branches ih =>
    cases run with
    | @alternation _ _ e _ _ mem run =>
      have some := ih e mem run
      by_cases each : fillsEach branches = true
      · rw [fills, each]
        rwa [fills_of_fillsEach each mem] at some
      · rw [fills, Bool.eq_false_iff.2 each]
        exact some.weaken
  | repetition id body bounds same ih =>
    obtain ⟨u, lead, v, least, more⟩ := matches_repetition_iff.1 run
    have first := GoesOn.replicate ih least
    -- what follows the least number of occurrences does not go back
    have others : GoesOn false v t := by
      obtain ⟨_, _ | most⟩ := bounds
      · obtain ⟨extra, runs⟩ := more
        exact (GoesOn.replicate ih runs.inOrder).weaken
      · obtain ⟨extra, -, runs⟩ := more
        exact (GoesOn.replicate ih runs).weaken
    have whole := ((GoesOn.reads lead).weaken.trans first).trans others
    rwa [Bool.false_or, Bool.or_false, fills_unit] at whole
  | group id body capture ih =>
    cases run with
    | group run => exact ih run
    | capture run =>
      have inner := ih run
      exact inner
  | backref id target =>
    cases run with
    | backref _ reads => exact (GoesOn.reads reads).weaken

end PatternSampler
