/-
# Where calls stand in the text

What a reader leaves is the end of its text, so the length of what is left tells where in the text a
call was made.  The calls on what macros stand for have a text of their own, in which no group
captures.

* `Call.Ends.suffix` : what is left is the end of the text.
* `Call.Within.suffix` : the calls within a call stand one after the other in its text.
* `Call.Within.eq_plain` : what macros stand for has no capturing groups.
-/
import PatternSampler.Proofs.Reading.Groups

namespace PatternSampler.Reading

variable {cs rest : List Char}

theorem skipMarker_suffix (present : Bool) (cs : List Char) : skipMarker present cs <:+ cs := by
  unfold skipMarker
  split
  · exact List.drop_suffix 2 cs
  · exact List.suffix_rfl

theorem readAtom_suffix {a : Atom} (plain : cs.head? ≠ some '(')
    (read : readAtom cs = .ok (a, rest)) : rest <:+ cs := by
  rcases readAtom_cases plain read with ⟨used, -, -, rfl, -⟩ | ⟨used, ⟨rfl, -⟩, -⟩
  · exact List.suffix_append used rest
  · exact List.suffix_append used rest

theorem readGroupHead_suffix {kind : GroupKind} (read : readGroupHead cs = .ok (kind, rest)) :
    rest <:+ cs := by
  rcases readGroupHead_cases read with ⟨-, rfl, -⟩ | ⟨used, -, rfl, -⟩
  · exact List.suffix_rfl
  · exact List.suffix_append _ rest

theorem readQuantifier_suffix {quantifier : Option Quantifier}
    (read : readQuantifier cs = .ok (quantifier, rest)) : rest <:+ cs := by
  rcases readQuantifier_cases read with ⟨-, rfl, -⟩ | ⟨c, used, -, -, rfl, -⟩
  · exact List.suffix_rfl
  · exact List.suffix_append _ rest

namespace Call

variable {B C C' G : Call} {made : List Call} {ids : List ℕ} {d : Draft}

/-- **What is left is the end of the text.** -/
theorem Ends.suffix (ends : C.Ends ids rest d) : rest <:+ C.text := by
  induction ends using Ends.induct with
  | step ends same course ih =>
    cases course with
    | atom plain read => exact readAtom_suffix plain read
    | expansion plain read => exact readAtom_suffix plain read
    | @group _ tail _ rest _ _ _ _ _ _ _ _ _ _ _ head _ inner =>
      have inside := ih _ List.mem_cons_self inner
      have before := (readGroupHead_suffix head).trans (List.suffix_cons '(' tail)
      exact (List.suffix_cons ')' _).trans (inside.trans before)
    | @piece _ cs _ rest₂ _ _ _ _ _ _ inner read =>
      have inside := (ih _ List.mem_cons_self inner).trans (skipMarker_suffix (atMarker cs) cs)
      have quantifier := (readQuantifier_suffix read).trans (skipMarker_suffix _ _)
      have behind := (skipMarker_suffix (atClosingMarker rest₂) rest₂).trans quantifier
      exact behind.trans inside
    | stop => exact List.suffix_rfl
    | next _ first others =>
      have head := ih _ List.mem_cons_self first
      exact (ih _ (List.mem_cons_of_mem _ List.mem_cons_self) others).trans head
    | last first => exact ih _ List.mem_cons_self first
    | @more _ _ tail _ _ _ _ _ _ _ _ first _ others =>
      have head := (List.suffix_cons '|' tail).trans (ih _ List.mem_cons_self first)
      exact (ih _ (List.mem_cons_of_mem _ List.mem_cons_self) others).trans head

/-- Between its parentheses a group has room for both of them. -/
theorem ReadsGroup.length_lt {kind : GroupKind} {id : ℕ} (reads : G.ReadsGroup kind id rest) :
    rest.length + 1 < G.text.length := by
  obtain ⟨_, _, inner, _, _, _, -, course⟩ := reads.course
  obtain ⟨first, more, ends, -⟩ := course.inside
  have le := ends.length_le
  have lt := course.shorter
  rw [List.length_cons] at le
  omega

/-- A call that is made either goes on in the same text, or it is made on what a macro stands for.
-/
theorem Course.text (course : C.Course made ids rest d) (mem : C' ∈ made) :
    (C'.expanding = C.expanding ∧ C'.text <:+ C.text ∧
      ∀ {ids' : List ℕ} {rest' : List Char} {d' : Draft}, C'.Ends ids' rest' d' → rest <:+ rest') ∨
    (C.expanding = false ∧ C'.expanding = true ∧
      ∃ name text, expansion? name = some text ∧ C'.text = text.toList) := by
  cases course with
  | atom => cases mem
  | expansion _ _ expands =>
    rw [List.mem_singleton.1 mem]
    exact .inr ⟨rfl, rfl, _, _, expands, rfl⟩
  | @group _ tail _ rest _ _ _ _ _ _ _ _ _ _ _ head _ inner =>
    rw [List.mem_singleton.1 mem]
    refine .inl ⟨rfl, (readGroupHead_suffix head).trans (List.suffix_cons '(' tail), ?_⟩
    intro ids' rest' d' ends
    obtain ⟨-, rfl, -⟩ := inner.unique ends
    exact List.suffix_cons ')' rest
  | piece inner read =>
    rw [List.mem_singleton.1 mem]
    refine .inl ⟨rfl, skipMarker_suffix _ _, ?_⟩
    intro ids' rest' d' ends
    obtain ⟨-, rfl, -⟩ := inner.unique ends
    have quantifier := (readQuantifier_suffix read).trans (skipMarker_suffix _ _)
    exact (skipMarker_suffix _ _).trans quantifier
  | stop => cases mem
  | next _ first others =>
    rcases List.mem_cons.1 mem with rfl | mem
    · refine .inl ⟨rfl, List.suffix_rfl, ?_⟩
      intro ids' rest' d' ends
      obtain ⟨-, rfl, -⟩ := first.unique ends
      exact others.suffix
    · rw [List.mem_singleton.1 mem]
      refine .inl ⟨rfl, first.suffix, ?_⟩
      intro ids' rest' d' ends
      obtain ⟨-, rfl, -⟩ := others.unique ends
      exact List.suffix_rfl
  | last first =>
    rw [List.mem_singleton.1 mem]
    refine .inl ⟨rfl, List.suffix_rfl, ?_⟩
    intro ids' rest' d' ends
    obtain ⟨-, rfl, -⟩ := first.unique ends
    exact List.suffix_rfl
  | @more _ _ tail _ _ _ _ _ _ _ _ first _ others =>
    rcases List.mem_cons.1 mem with rfl | mem
    · refine .inl ⟨rfl, List.suffix_rfl, ?_⟩
      intro ids' rest' d' ends
      obtain ⟨-, rfl, -⟩ := first.unique ends
      have behind : rest <:+ tail := others.suffix
      exact behind.trans (List.suffix_cons '|' tail)
    · rw [List.mem_singleton.1 mem]
      refine .inl ⟨rfl, (List.suffix_cons '|' tail).trans first.suffix, ?_⟩
      intro ids' rest' d' ends
      obtain ⟨-, rfl, -⟩ := others.unique ends
      exact List.suffix_rfl

/-- Within what a macro stands for there is nothing else. -/
theorem Within.expanding (within : B.Within C) (ends : C.Ends ids rest d)
    (expanding : C.expanding = true) : B.expanding = true := by
  induction within with
  | refl => exact expanding
  | @tail middle _ before mem ih =>
    obtain ⟨_, _, _, ends', -, -⟩ := Within.ends before ends
    rcases ends'.course.text mem with ⟨same, -⟩ | ⟨-, same, -⟩
    · exact same.trans ih
    · exact same

theorem Within.expanding_eq (within : B.Within C) (ends : C.Ends ids rest d)
    (off : B.expanding = false) : B.expanding = C.expanding := by
  rw [off, eq_comm, Bool.eq_false_iff]
  intro on
  exact Bool.false_ne_true (off.symm.trans (within.expanding ends on))

/-- **The calls within a call stand in its text**, in front of what it leaves. -/
theorem Within.suffix (within : B.Within C) (ends : C.Ends ids rest d)
    (same : B.expanding = C.expanding) :
    B.text <:+ C.text ∧ ∀ {ids' : List ℕ} {rest' : List Char} {d' : Draft},
      B.Ends ids' rest' d' → rest <:+ rest' := by
  induction within with
  | refl =>
    refine ⟨List.suffix_rfl, fun ends' => ?_⟩
    obtain ⟨-, rfl, -⟩ := ends.unique ends'
    exact List.suffix_rfl
  | @tail middle B before mem ih =>
    obtain ⟨_, rest', _, ends', -, -⟩ := Within.ends before ends
    rcases ends'.course.text mem with ⟨same', text, left⟩ | ⟨off, on, -⟩
    · obtain ⟨text', left'⟩ := ih (same'.symm.trans same)
      exact ⟨text.trans text', fun ends'' => (left' ends').trans (left ends'')⟩
    · -- a macro is known only outside of what macros stand for
      have outside : C.expanding = true := same.symm.trans on
      rw [Within.expanding before ends outside] at off
      cases off

/-- A call in the text of the pattern is made between where the call around it begins and ends. -/
theorem Within.length_le (within : B.Within C) (ends : C.Ends ids rest d)
    (off : B.expanding = false) :
    rest.length ≤ B.text.length ∧ B.text.length ≤ C.text.length := by
  obtain ⟨text, left⟩ := within.suffix ends (within.expanding_eq ends off)
  obtain ⟨_, _, _, ends', -, -⟩ := within.ends ends
  exact ⟨((left ends').trans ends'.suffix).length_le, text.length_le⟩

/-- The text of a call on what a macro stands for, or within it. -/
theorem Within.exists_expansion (within : B.Within C) (ends : C.Ends ids rest d)
    (off : C.expanding = false) (on : B.expanding = true) :
    ∃ entry ∈ macros, B.text <:+ entry.2.toList := by
  induction within with
  | refl => cases off.symm.trans on
  | @tail middle B before mem ih =>
    obtain ⟨_, _, _, ends', -, -⟩ := Within.ends before ends
    rcases ends'.course.text mem with ⟨same, text, -⟩ | ⟨-, -, name, text, expands, eq⟩
    · obtain ⟨entry, mem', text'⟩ := ih (same.symm.trans on)
      exact ⟨entry, mem', text.trans text'⟩
    · exact ⟨(name, text), mem_macros_of_expansion? expands, by rw [eq]⟩

/-- If a text begins with a group, that group does not capture. -/
def beginsPlain : List Char → Bool
  | '(' :: tail =>
    match readGroupHead tail with
    | .ok (kind, _) => kind = .plain
    | .error _ => true
  | _ => true

/-- **What macros stand for has no capturing groups.** -/
theorem Within.eq_plain {kind : GroupKind} {id : ℕ} {left : List Char} (within : G.Within C)
    (ends : C.Ends ids rest d) (off : C.expanding = false) (on : G.expanding = true)
    (reads : G.ReadsGroup kind id left) : kind = .plain := by
  have all : ∀ entry ∈ macros, ∀ cs ∈ entry.2.toList.tails, beginsPlain cs = true := by
    decide +kernel
  obtain ⟨entry, mem, text⟩ := within.exists_expansion ends off on
  obtain ⟨tail, inside, eq, head⟩ := reads.opens
  have plain := all entry mem G.text ((List.mem_tails _ _).2 text)
  rw [eq, beginsPlain, head] at plain
  exact of_decide_eq_true plain

end Call

end PatternSampler.Reading
