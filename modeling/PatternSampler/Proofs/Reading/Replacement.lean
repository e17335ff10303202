/-
# Phrases in place of others

A phrase replaces another one if it means something with the same code whenever the other one means
anything, with the same account behind it.  Groups, branches and choices take over what holds of
their parts.

* `Phrase.Replaces` : a phrase in the place of another one.
* `Phrase.ReplacesRow` : pieces in the place of others behind a text that is waiting.
-/
import PatternSampler.Proofs.Program.Merging
import PatternSampler.Proofs.Reading.Meaning

namespace PatternSampler

open Reading

namespace Phrase

/-- A phrase may stand in the place of another one: if that has a meaning, it has one with the same
code, and the account behind it is the same. -/
def Replaces (φ' φ : Phrase) : Prop :=
  ∀ {total : ℕ} {n m : Account} {e : Expr}, φ.meaning total n = some (e, m) →
    ∃ e', φ'.meaning total n = some (e', m) ∧ Expr.SameCode e e'

/-- Phrases one after the other may stand in the place of others behind a text. -/
def ReplacesRow (pending : List Char) (φs' φs : List Phrase) : Prop :=
  ∀ {total : ℕ} {n m : Account} {es : List Expr}, meaningAll total φs n = some (es, m) →
    ∃ es', meaningAll total φs' n = some (es', m) ∧
      Expr.SameCodeAll (.text 0 pending :: es) es'

variable {φ φ' : Phrase} {φs φs' : List Phrase} {marks marks' : Marks}
  {quantifier : Option Quantifier} {pending used : List Char}

/-- Where the markers of a piece are does not count for what it means. -/
theorem replaces_piece (marks marks' : Marks) (φ : Phrase) (quantifier : Option Quantifier) :
    (piece marks' φ quantifier).Replaces (piece marks φ quantifier) := by
  intro total n m e meaning
  exact ⟨e, meaning, .refl e⟩

/-- The inside of a group may be replaced, also if the group is repeated. -/
theorem Replaces.group (h : φ'.Replaces φ) (kind : GroupKind) (marks marks' : Marks)
    (quantifier : Option Quantifier) :
    (piece marks' (group kind φ') quantifier).Replaces (piece marks (group kind φ) quantifier) := by
  intro total n m e meaning
  obtain ⟨f, group, rfl⟩ := meaning_piece_eq_some.1 meaning
  obtain ⟨e, m', inner, rfl, rfl⟩ := meaning_group_eq_some.1 group
  obtain ⟨e', inner', same⟩ := h inner
  have same := same.group 0 (m'.capture n total kind)
  refine ⟨_, meaning_piece_eq_some.2
    ⟨_, meaning_group_eq_some.2 ⟨e', m', inner', rfl, rfl⟩, rfl⟩, ?_⟩
  cases quantifier with
  | none => exact same
  | some q =>
    -- what is repeated of a group is the group
    have lead : (Expr.group 0 e' (m'.capture n total kind)).lead =
        (Expr.group 0 e (m'.capture n total kind)).lead := rfl
    have unit : Expr.SameCode (Expr.unit (.group 0 e (m'.capture n total kind)))
        (Expr.unit (.group 0 e' (m'.capture n total kind))) := same
    exact .repetition lead unit 0 q.bounds q.sameText

/-- Each of several branches may be replaced. -/
theorem exists_meaningAll_of_replaces (each : List.Forall₂ Replaces φs' φs) {total : ℕ}
    {n m : Account} {es : List Expr} (meanings : meaningAll total φs n = some (es, m)) :
    ∃ es', meaningAll total φs' n = some (es', m) ∧ List.Forall₂ Expr.SameCode es es' := by
  induction each generalizing n es with
  | nil =>
    obtain ⟨rfl, rfl⟩ := meaningAll_nil_eq_some.1 meanings
    exact ⟨[], rfl, .nil⟩
  | cons head _ ih =>
    obtain ⟨e, m', es, first, more, rfl⟩ := meaningAll_cons_eq_some.1 meanings
    obtain ⟨e', first', same⟩ := head first
    obtain ⟨es', more', all⟩ := ih more
    exact ⟨e' :: es', meaningAll_cons_eq_some.2 ⟨e', m', es', first', more', rfl⟩, .cons same all⟩

theorem Replaces.choice (head : φ'.Replaces φ) (tail : List.Forall₂ Replaces φs' φs) :
    (choice φ' φs').Replaces (choice φ φs) := by
  intro total n m e meaning
  obtain ⟨e, m', es, first, more, rfl⟩ := meaning_choice_eq_some.1 meaning
  obtain ⟨e', first', same⟩ := head first
  obtain ⟨es', more', all⟩ := exists_meaningAll_of_replaces tail more
  exact ⟨_, meaning_choice_eq_some.2 ⟨e', m', es', first', more', rfl⟩, same.oneOf all⟩

/-! ### Pieces -/

theorem replacesRow_nil : ReplacesRow [] [] [] := by
  intro total n m es meanings
  obtain ⟨rfl, rfl⟩ := meaningAll_nil_eq_some.1 meanings
  exact ⟨[], rfl, Expr.sameCodeAll_nil []⟩

/-- The pieces of a branch may be replaced. -/
theorem ReplacesRow.branch (h : ReplacesRow [] φs' φs) : (branch φs').Replaces (branch φs) := by
  intro total n m e meaning
  obtain ⟨es, meanings, rfl⟩ := meaning_branch_eq_some.1 meaning
  obtain ⟨es', meanings', same⟩ := h meanings
  have all := (Expr.sameCodeAll_nil es).symm.trans same
  exact ⟨_, meaning_branch_eq_some.2 ⟨es', meanings', rfl⟩, all.row⟩

/-- One piece is replaced by one piece. -/
theorem ReplacesRow.cons (head : φ'.Replaces φ) (tail : ReplacesRow [] φs' φs) :
    ReplacesRow [] (φ' :: φs') (φ :: φs) := by
  intro total n m es meanings
  obtain ⟨e, m', es, first, more, rfl⟩ := meaningAll_cons_eq_some.1 meanings
  obtain ⟨e', first', same⟩ := head first
  obtain ⟨es', more', all⟩ := tail more
  exact ⟨e' :: es', meaningAll_cons_eq_some.2 ⟨e', m', es', first', more', rfl⟩,
    (Expr.sameCodeAll_nil _).trans (.cons same ((Expr.sameCodeAll_nil es).symm.trans all))⟩

/-- The text in front becomes a piece of its own. -/
theorem ReplacesRow.flush (h : ReplacesRow [] φs' φs) (marks : Marks) (pending : List Char) :
    ReplacesRow pending (piece marks (atom (.text pending)) none :: φs') φs := by
  intro total n m es meanings
  obtain ⟨es', meanings', same⟩ := h meanings
  exact ⟨.text 0 pending :: es', meaningAll_cons_eq_some.2 ⟨_, n, es', rfl, meanings', rfl⟩,
    .cons (.refl _) ((Expr.sameCodeAll_nil es).symm.trans same)⟩

/-- The text in front is put together with a text. -/
theorem ReplacesRow.text (h : ReplacesRow (pending ++ used) φs' φs) (marks : Marks) :
    ReplacesRow pending φs' (piece marks (atom (.text used)) none :: φs) := by
  intro total n m es meanings
  obtain ⟨e, m', es, first, more, rfl⟩ := meaningAll_cons_eq_some.1 meanings
  cases first
  obtain ⟨es', meanings', same⟩ := h more
  exact ⟨es', meanings', (Expr.sameCodeAll_texts pending used es).trans same⟩

/-- The text in front is put together with a repeated text. -/
theorem ReplacesRow.repeated (h : ReplacesRow [] φs' φs) (some : used ≠ []) (marks marks' : Marks)
    (q : Quantifier) :
    ReplacesRow pending (piece marks' (atom (.text (pending ++ used))) (.some q) :: φs')
      (piece marks (atom (.text used)) (.some q) :: φs) := by
  intro total n m es meanings
  obtain ⟨e, m', es, first, more, rfl⟩ := meaningAll_cons_eq_some.1 meanings
  cases first
  obtain ⟨es', meanings', same⟩ := h more
  refine ⟨_, meaningAll_cons_eq_some.2 ⟨_, n, es', rfl, meanings', rfl⟩, ?_⟩
  exact (Expr.sameCodeAll_repeated pending some q.bounds q.sameText es).trans
    (.cons (.refl _) ((Expr.sameCodeAll_nil es).symm.trans same))

end Phrase

end PatternSampler
