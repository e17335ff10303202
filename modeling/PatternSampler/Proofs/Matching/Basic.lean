/-
# Matching, big steps

How an expression matches a part of the input, as a relation between the place where the part begins
and the place where it ends.  A place is a position in the input together with the texts that the
capturing groups have taken up so far.

* `Expr.Matches` is the relation, one rule for each kind of expression.
* `InOrder` and `Advancing` say what it means to match several expressions one after the other,
  `Bounds.Repeats` what it means to match one a number of times.
-/
import PatternSampler.Proofs.Tree.Parts

namespace PatternSampler

/-- The text that each capture number stands for, if there is one yet. -/
abbrev Captures := ℕ → Option (List Char)

/-- A place in a match: how much of the input has been read, and what has been captured. -/
structure Place where
  /-- How much of the input has been read. -/
  pos : ℕ
  /-- The texts that have been captured. -/
  captures : Captures

/-- What leads from one place to another. -/
abbrev Passage := Place → Place → Prop

/-- How often a repeated part may occur.  A greatest number below the least one allows just the
least number. -/
def Bounds.Allows (b : Bounds) (count : ℕ) : Prop :=
  b.least ≤ count ∧ ∀ most, b.most = some most → count ≤ max b.least most

/-! ## Passages made of passages -/

/-- Some characters are read from the input. -/
def Reads (input chars : List Char) : Passage := fun s t =>
  chars <+: input.drop s.pos ∧ t = ⟨s.pos + chars.length, s.captures⟩

/-- A text is read in two parts. -/
theorem append_prefix_drop {input chars chars' : List Char} {pos : ℕ} :
    chars ++ chars' <+: input.drop pos ↔
      chars <+: input.drop pos ∧ chars' <+: input.drop (pos + chars.length) := by
  rw [← List.drop_drop]
  constructor
  · rintro ⟨rest, eq⟩
    rw [← eq, List.append_assoc, List.drop_left]
    exact ⟨List.prefix_append _ _, List.prefix_append _ _⟩
  · rintro ⟨⟨rest, eq⟩, more⟩
    rw [← eq, List.drop_left] at more
    rw [← eq]
    exact (List.prefix_append_right_inj chars).2 more

/-- The passages of several expressions, one after the other. -/
inductive InOrder (R : Expr → Passage) : List Expr → Passage
  | nil (s : Place) : InOrder R [] s s
  | cons {e : Expr} {es : List Expr} {s t u : Place} :
      R e s t → InOrder R es t u → InOrder R (e :: es) s u

/-- The passages of several expressions, one after the other, each of which reads something. -/
inductive Advancing (R : Expr → Passage) : List Expr → Passage
  | nil (s : Place) : Advancing R [] s s
  | cons {e : Expr} {es : List Expr} {s t u : Place} :
      R e s t → s.pos < t.pos → Advancing R es t u → Advancing R (e :: es) s u

/-- Nothing leads nowhere. -/
theorem inOrder_nil_iff {R : Expr → Passage} {s t : Place} : InOrder R [] s t ↔ s = t := by
  constructor
  · rintro ⟨⟩
    rfl
  · rintro rfl
    exact .nil s

/-- The first part leads to where the others begin. -/
theorem inOrder_cons_iff {R : Expr → Passage} {e : Expr} {es : List Expr} {s u : Place} :
    InOrder R (e :: es) s u ↔ Relation.Comp (R e) (InOrder R es) s u := by
  constructor
  · rintro (_ | ⟨first, others⟩)
    exact ⟨_, first, others⟩
  · rintro ⟨t, first, others⟩
    exact .cons first others

/-- Parts one after the other, in two groups. -/
theorem InOrder.append {R : Expr → Passage} {es fs : List Expr} {s u : Place} :
    InOrder R (es ++ fs) s u ↔ Relation.Comp (InOrder R es) (InOrder R fs) s u := by
  induction es generalizing s with
  | nil =>
    constructor
    · intro h
      exact ⟨s, .nil s, h⟩
    · rintro ⟨_, ⟨⟩, h⟩
      exact h
  | cons e es ih =>
    constructor
    · rintro (_ | ⟨first, others⟩)
      obtain ⟨v, before, after⟩ := ih.1 others
      exact ⟨v, .cons first before, after⟩
    · rintro ⟨v, _ | ⟨first, before⟩, after⟩
      exact .cons first (ih.2 ⟨v, before, after⟩)

/-- A passage whose parts all read something is a passage. -/
theorem Advancing.inOrder {R : Expr → Passage} {es : List Expr} {s t : Place}
    (h : Advancing R es s t) :
    InOrder R es s t := by
  induction h with
  | nil s => exact .nil s
  | cons first _ _ ih => exact .cons first ih

/-- If each part reads something, the passage does so part by part. -/
theorem InOrder.advancing {R : Expr → Passage} {es : List Expr} {s t : Place}
    (h : InOrder R es s t) (grows : ∀ e ∈ es, ∀ s t : Place, R e s t → s.pos < t.pos) :
    Advancing R es s t := by
  induction h with
  | nil s => exact .nil s
  | cons first _ ih =>
    have others := ih fun e he => grows e (List.mem_cons_of_mem _ he)
    exact .cons first (grows _ List.mem_cons_self _ _ first) others

/-- The passages of an expression again and again: its least number of times, then on as its bounds
allow. -/
def Bounds.Repeats (b : Bounds) (R : Expr → Passage) (e : Expr) : Passage :=
  Relation.Comp (InOrder R (List.replicate b.least e)) fun s t =>
    match b.most with
    | none => ∃ extra, Advancing R (List.replicate extra e) s t
    | some most => ∃ extra ≤ most - b.least, InOrder R (List.replicate extra e) s t

namespace Expr

/-- **How an expression matches.**  A bounded repetition occurs its least number of times and then
up to its greatest number; an unbounded one goes on only as long as each occurrence reads
something.  A group that captures takes up the text that it matched; a backreference needs such a
text and reads it again. -/
inductive Matches (input : List Char) : Expr → Passage
  | text {id : ℕ} {chars : List Char} {s t : Place} :
      Reads input chars s t → Matches input (.text id chars) s t
  | set {id : ℕ} {set : CharSet} {c : Char} {s t : Place} :
      set.accepts c = true → Reads input [c] s t → Matches input (.set id set) s t
  | concat {id : ℕ} {parts : List Expr} {s t : Place} :
      InOrder (Matches input) parts s t → Matches input (.concat id parts) s t
  | alternation {id : ℕ} {branches : List Expr} {e : Expr} {s t : Place} :
      e ∈ branches → Matches input e s t → Matches input (.alternation id branches) s t
  | bounded {id least most extra : ℕ} {body : Expr} {same : Bool} {s t u v : Place} :
      Reads input body.lead s t →
      InOrder (Matches input) (List.replicate least body.unit) t u →
      extra ≤ most - least → InOrder (Matches input) (List.replicate extra body.unit) u v →
      Matches input (.repetition id body ⟨least, some most⟩ same) s v
  | unbounded {id least extra : ℕ} {body : Expr} {same : Bool} {s t u v : Place} :
      Reads input body.lead s t →
      InOrder (Matches input) (List.replicate least body.unit) t u →
      Advancing (Matches input) (List.replicate extra body.unit) u v →
      Matches input (.repetition id body ⟨least, none⟩ same) s v
  | group {id : ℕ} {body : Expr} {s t : Place} :
      Matches input body s t → Matches input (.group id body none) s t
  | capture {id n : ℕ} {body : Expr} {s t : Place} :
      Matches input body s t →
      Matches input (.group id body (some n)) s
        ⟨t.pos, Function.update t.captures n (some (input.extract s.pos t.pos))⟩
  | backref {id gid n : ℕ} {body : Expr} {chars : List Char} {s t : Place} :
      s.captures n = some chars → Reads input chars s t →
      Matches input (.backref id (.group gid body (some n))) s t

/-! ### What a match is, for each kind of expression -/

variable {input : List Char} {id : ℕ} {s t : Place}

theorem matches_text_iff {chars : List Char} :
    Matches input (.text id chars) s t ↔ Reads input chars s t := by
  constructor
  · rintro ⟨⟩
    assumption
  · exact .text

theorem matches_set_iff {set : CharSet} :
    Matches input (.set id set) s t ↔ ∃ c, set.accepts c = true ∧ Reads input [c] s t := by
  constructor
  · rintro (_ | ⟨accepted, reads⟩)
    exact ⟨_, accepted, reads⟩
  · rintro ⟨c, accepted, reads⟩
    exact .set accepted reads

/-- A sequence matches as its parts do, one after the other. -/
theorem matches_concat_iff {parts : List Expr} :
    Matches input (.concat id parts) s t ↔ InOrder (Matches input) parts s t := by
  constructor
  · rintro ⟨⟩
    assumption
  · exact .concat

/-- A choice matches as one of its branches does. -/
theorem matches_alternation_iff {branches : List Expr} :
    Matches input (.alternation id branches) s t ↔ ∃ e ∈ branches, Matches input e s t := by
  constructor
  · rintro ⟨⟩
    exact ⟨_, ‹_›, ‹_›⟩
  · rintro ⟨e, mem, run⟩
    exact .alternation mem run

theorem matches_group_iff {body : Expr} :
    Matches input (.group id body none) s t ↔ Matches input body s t := by
  constructor
  · rintro ⟨⟩
    assumption
  · exact .group

/-- A group that captures keeps what it has read. -/
theorem matches_capture_iff {body : Expr} {n : ℕ} :
    Matches input (.group id body (some n)) s t ↔ ∃ u, Matches input body s u ∧
      t = ⟨u.pos, Function.update u.captures n (some (input.extract s.pos u.pos))⟩ := by
  constructor
  · rintro ⟨⟩
    exact ⟨_, ‹_›, rfl⟩
  · rintro ⟨u, run, rfl⟩
    exact .capture run

/-- A backreference reads what its group has kept, if it has kept anything. -/
theorem matches_backref_iff {gid n : ℕ} {body : Expr} :
    Matches input (.backref id (.group gid body (some n))) s t ↔
      ∃ chars, s.captures n = some chars ∧ Reads input chars s t := by
  constructor
  · rintro ⟨⟩
    exact ⟨_, ‹_›, ‹_›⟩
  · rintro ⟨chars, captured, reads⟩
    exact .backref captured reads

/-- A repetition matches the lead once, then the unit as often as the bounds allow. -/
theorem matches_repetition_iff {body : Expr} {bounds : Bounds} {same : Bool} :
    Matches input (.repetition id body bounds same) s t ↔
      Relation.Comp (Reads input body.lead) (bounds.Repeats (Matches input) body.unit) s t := by
  constructor
  · rintro (_ | _ | _ | _ | ⟨lead, least, le, extra⟩ | ⟨lead, least, extra⟩)
    · exact ⟨_, lead, _, least, _, le, extra⟩
    · exact ⟨_, lead, _, least, _, extra⟩
  · obtain ⟨least, _ | most⟩ := bounds
    · rintro ⟨_, lead, _, least, _, extra⟩
      exact .unbounded lead least extra
    · rintro ⟨_, lead, _, least, _, le, extra⟩
      exact .bounded lead least le extra

end Expr

end PatternSampler
