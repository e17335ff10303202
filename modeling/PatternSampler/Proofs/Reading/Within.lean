/-
# What happens within a call

A draft changes step by step: a node is added, a group opens or closes, marking is turned on or off.
What each step does, and what can be put together, is what a call does as a whole.

* `Draft.Continues` : one draft comes after another one in a reading.
* `Reading.Carried` : what each step of a reading does, `Call.Ends.carried` : what a whole call
  does.
* `Call.Within` : the calls that are made while a call is carried out.
* `Call.Within.ends` : they all end, and the drafts that they work on lie in between.
-/
import PatternSampler.Proofs.Reading.Call

namespace PatternSampler

open Reading

/-! ## Drafts one after the other -/

/-- What is in a draft is still there in another one, marks and opened groups included. -/
structure Draft.Continues (d d' : Draft) : Prop extends d.Begins d' where
  opened : d.opened ≤ d'.opened
  candidates : d.candidates.toList <+: d'.candidates.toList

namespace Draft.Continues

variable {d d' d'' : Draft}

theorem refl (d : Draft) : d.Continues d :=
  ⟨.refl d, le_rfl, List.prefix_rfl⟩

theorem trans (first : d.Continues d') (second : d'.Continues d'') : d.Continues d'' :=
  ⟨first.toBegins.trans second.toBegins, first.opened.trans second.opened,
    first.candidates.trans second.candidates⟩

theorem plant (d : Draft) (shape : Shape) : d.Continues (d.plant shape) where
  toBegins := begins_plant d shape
  opened := le_rfl
  candidates := by
    show d.candidates.toList <+:
      (if d.marking then d.candidates.push d.tree.size else d.candidates).toList
    split
    · rw [Array.toList_push]
      exact List.prefix_append _ _
    · exact List.prefix_rfl

end Draft.Continues

namespace Reading

/-! ## Steps -/

/-- Nothing is added, or a node that is neither a backreference nor a capturing group. -/
def AddsPlain (d d' : Draft) : Prop :=
  d' = d ∨ ∃ shape : Shape, (∀ target, shape ≠ .backref target) ∧ shape.capture? = none ∧
    d' = d.plant shape

variable {d d' : Draft} {id : ℕ}

/-- A quantifier adds one plain node at most. -/
theorem addsPlain_repeated {quantifier : Option Quantifier} {node : ℕ}
    (run : Phrase.repeated quantifier node d = .ok id d') : AddsPlain d d' := by
  cases quantifier with
  | none =>
    cases run
    exact .inl rfl
  | some q =>
    cases run
    exact .inr ⟨_, by simp, rfl, rfl⟩

/-- A branch adds one plain node at most. -/
theorem addsPlain_plantBranch {ids : List ℕ} (run : plantBranch ids d = .ok id d') :
    AddsPlain d d' := by
  unfold plantBranch at run
  split at run <;> cases run
  · exact .inr ⟨_, by simp, rfl, rfl⟩
  · exact .inl rfl
  · exact .inr ⟨_, by simp, rfl, rfl⟩

/-- A choice adds one plain node at most. -/
theorem addsPlain_plantAlternatives {first : ℕ} {more : List ℕ}
    (run : plantAlternatives first more d = .ok id d') : AddsPlain d d' := by
  unfold plantAlternatives at run
  split at run <;> cases run
  · exact .inl rfl
  · exact .inr ⟨_, by simp, rfl, rfl⟩

/-- What an atom refers to: the group of its number or of its name. -/
def Atom.RefersTo (d : Draft) (target : ℕ) : Atom → Prop
  | backrefNumber number => d.groupOfNumber? number = some target
  | backrefName name => d.groupOfName? name = some target
  | text _ | set _ | macroName _ => False

/-- An atom that is neither a group nor a macro adds one node, which no group captures. -/
theorem exists_plant_of_build_atom {a : Atom} (run : (Phrase.atom a).build d = .ok id d') :
    ∃ shape : Shape, id = d.tree.size ∧ d' = d.plant shape ∧ shape.capture? = none ∧
      ∀ target, shape = .backref target ↔ a.RefersTo d target := by
  rw [Phrase.build] at run
  cases a with
  | text | set =>
    cases run
    exact ⟨_, rfl, rfl, rfl, fun target => iff_of_false (by simp) id⟩
  | backrefNumber number =>
    obtain ⟨target, found, ⟨⟩⟩ := plantAtom_backrefNumber_eq_ok_iff.1 run
    refine ⟨.backref target, rfl, rfl, rfl, fun target' => ?_⟩
    rw [Atom.RefersTo, found, Option.some_inj, Shape.backref.injEq]
  | backrefName name =>
    obtain ⟨target, found, ⟨⟩⟩ := plantAtom_backrefName_eq_ok_iff.1 run
    refine ⟨.backref target, rfl, rfl, rfl, fun target' => ?_⟩
    rw [Atom.RefersTo, found, Option.some_inj, Shape.backref.injEq]
  | macroName => cases run

/-- What each step of a reading does, and what can be put together. -/
structure Carried (Q : Draft → Draft → Prop) : Prop where
  refl : ∀ d, Q d d
  trans : ∀ {d d' d'' : Draft}, Q d d' → Q d' d'' → Q d d''
  plants : ∀ (d : Draft) (shape : Shape), (∀ target, shape ≠ .backref target) →
    shape.capture? = none → Q d (d.plant shape)
  opens : ∀ {kind : GroupKind} {number : Option ℕ} {d d' : Draft},
    openGroup kind d = .ok number d' → Q d d'
  closes : ∀ {kind : GroupKind} {number : Option ℕ} {body id : ℕ} {d d' : Draft},
    closeGroup kind number body d = .ok id d' → Q d d'
  marks : ∀ (d : Draft) (present : Bool), Q d (d.markIf present)
  marksFrom : ∀ (d : Draft) (present : Bool) (first : ℕ), Q d (d.markFromIf present first)
  restores : ∀ (d : Draft) (marking : Bool), Q d { d with marking }

theorem Carried.plain {Q : Draft → Draft → Prop} (carried : Carried Q) (adds : AddsPlain d d') :
    Q d d' := by
  rcases adds with rfl | ⟨shape, other, free, rfl⟩
  · exact carried.refl _
  · exact carried.plants d shape other free

namespace Call

/-! ## Calls within a call -/

/-- A call is made while another one is carried out, or is that one. -/
def Within (C' C : Call) : Prop :=
  Relation.ReflTransGen (fun C C' => C' ∈ C.calls) C C'

variable {C C' C'' : Call} {ids : List ℕ} {rest : List Char}

theorem Within.refl (C : Call) : C.Within C :=
  Relation.ReflTransGen.refl

theorem Within.trans (inner : C''.Within C') (outer : C'.Within C) : C''.Within C :=
  Relation.ReflTransGen.trans outer inner

/-- A direct call lies within the one that makes it. -/
theorem within_of_mem (mem : C' ∈ C.calls) : C'.Within C :=
  Relation.ReflTransGen.single mem

/-- A call within another one is this one, or lies within a direct one. -/
theorem within_iff : C'.Within C ↔ C' = C ∨ ∃ first ∈ C.calls, C'.Within first := by
  rw [Within, Relation.ReflTransGen.cases_head_iff, eq_comm]
  rfl

/-- **What each step does is what a whole call does.** -/
theorem Ends.carried {Q : Draft → Draft → Prop} (carried : Carried Q)
    (atoms : ∀ {expanding : Bool} {cs rest : List Char} {a : Atom} {id : ℕ} {d d' : Draft},
      Within ⟨expanding, .atom, cs, d⟩ C → cs.head? ≠ some '(' → readAtom cs = .ok (a, rest) →
      (∀ name, a ≠ .macroName name) → (Phrase.atom a).build d = .ok id d' → Q d d')
    (ends : C.Ends ids rest d) : Q C.draft d := by
  induction ends using Ends.induct with
  | step ends same course ih =>
    have each (C' : Call) (mem : C' ∈ _) {ids' : List ℕ} {rest' : List Char} {d' : Draft}
        (ends : C'.Ends ids' rest' d') : Q C'.draft d' :=
      ih C' mem ends fun within => atoms (within.trans (within_of_mem (same ▸ mem)))
    cases course with
    | atom plain read noMacro built => exact atoms (.refl _) plain read noMacro built
    | expansion _ _ _ inner planted =>
      have inside := each _ List.mem_cons_self inner
      exact carried.trans inside (carried.plain (addsPlain_plantAlternatives planted))
    | group _ opens inner planted closes =>
      have inside := each _ List.mem_cons_self inner
      apply carried.trans (carried.opens opens)
      apply carried.trans inside
      exact carried.trans (carried.plain (addsPlain_plantAlternatives planted))
        (carried.closes closes)
    | piece inner _ planted =>
      have inside := each _ List.mem_cons_self inner
      apply carried.trans (carried.marks _ _)
      apply carried.trans inside
      apply carried.trans (carried.restores _ _)
      apply carried.trans (carried.marks _ _)
      apply carried.trans (carried.plain (addsPlain_repeated planted))
      exact carried.trans (carried.restores _ _) (carried.marksFrom _ _ _)
    | stop => exact carried.refl _
    | next _ first others =>
      have head := each _ List.mem_cons_self first
      exact carried.trans head (each _ (List.mem_cons_of_mem _ List.mem_cons_self) others)
    | last first _ planted =>
      have head := each _ List.mem_cons_self first
      exact carried.trans head (carried.plain (addsPlain_plantBranch planted))
    | more first planted others =>
      have head := each _ List.mem_cons_self first
      apply carried.trans head
      apply carried.trans (carried.plain (addsPlain_plantBranch planted))
      exact each _ (List.mem_cons_of_mem _ List.mem_cons_self) others

/-- Each step of a reading continues the draft. -/
theorem carried_continues : Carried Draft.Continues where
  refl := .refl
  trans := .trans
  plants := fun d shape _ _ => .plant d shape
  opens := by
    intro kind number d d' run
    cases kind <;> cases run
    · exact ⟨⟨le_rfl, fun _ _ => rfl, List.prefix_rfl, List.prefix_rfl⟩, Nat.le_succ _,
        List.prefix_rfl⟩
    · exact .refl d
    · exact .refl d
  closes := by
    intro kind number body id d d' run
    have numbered (n : ℕ) : d.Continues { d.plant (.group body none (some n)) with
        numbered := d.numbered.push (n, d.tree.size) } :=
      (Draft.Continues.plant d (.group body none (some n))).trans
        ⟨Draft.begins_push_numbered _ _, le_rfl, List.prefix_rfl⟩
    cases kind with
    | numbered =>
      cases number <;> cases run
      · exact .plant d _
      · exact numbered _
    | named name =>
      cases run
      exact (Draft.Continues.plant d (.group body (some name) none)).trans
        ⟨Draft.begins_push_named _ _, le_rfl, List.prefix_rfl⟩
    | plain =>
      cases number <;> cases run
      · exact .plant d _
      · exact numbered _
  marks := by
    intro d present
    cases present <;> exact ⟨(Draft.alike_markIf _ d).begins, le_rfl, List.prefix_rfl⟩
  marksFrom := by
    intro d present first
    cases present with
    | false => exact .refl d
    | true =>
      refine ⟨(Draft.alike_markFromIf true first d).begins, le_rfl, ?_⟩
      show d.candidates.toList <+: (d.candidates ++ _).toList
      rw [Array.toList_append]
      exact List.prefix_append _ _
  restores := fun d marking => ⟨(d.alike_marking marking).begins, le_rfl, List.prefix_rfl⟩

/-- What a call has done stays. -/
theorem Ends.continues (ends : C.Ends ids rest d) : C.draft.Continues d := by
  apply ends.carried carried_continues
  intro _ _ _ _ _ d₁ _ _ _ _ _ built
  obtain ⟨shape, -, rfl, -⟩ := exists_plant_of_build_atom built
  exact .plant d₁ shape

/-- The calls that a call makes end, and in between there is only what the call does itself. -/
theorem Course.ends {made : List Call} (course : C.Course made ids rest d) (mem : C' ∈ made) :
    ∃ ids' rest' d', C'.Ends ids' rest' d' ∧ C.draft.Continues C'.draft ∧ d'.Continues d := by
  have plain {d d' : Draft} (adds : AddsPlain d d') : d.Continues d' := carried_continues.plain adds
  cases course with
  | atom => cases mem
  | expansion _ _ _ inner planted =>
    rw [List.mem_singleton.1 mem]
    exact ⟨_, _, _, inner, .refl _, plain (addsPlain_plantAlternatives planted)⟩
  | group _ opens inner planted closes =>
    rw [List.mem_singleton.1 mem]
    refine ⟨_, _, _, inner, carried_continues.opens opens, ?_⟩
    exact (plain (addsPlain_plantAlternatives planted)).trans (carried_continues.closes closes)
  | piece inner _ planted =>
    rw [List.mem_singleton.1 mem]
    refine ⟨_, _, _, inner, carried_continues.marks _ _, ?_⟩
    apply (carried_continues.restores _ _).trans
    apply (carried_continues.marks _ _).trans
    apply (plain (addsPlain_repeated planted)).trans
    exact (carried_continues.restores _ _).trans (carried_continues.marksFrom _ _ _)
  | stop => cases mem
  | next _ first others =>
    rcases List.mem_cons.1 mem with rfl | mem
    · exact ⟨_, _, _, first, .refl _, others.continues⟩
    · rw [List.mem_singleton.1 mem]
      exact ⟨_, _, _, others, first.continues, .refl _⟩
  | last first _ planted =>
    rw [List.mem_singleton.1 mem]
    exact ⟨_, _, _, first, .refl _, plain (addsPlain_plantBranch planted)⟩
  | more first planted others =>
    have branch := plain (addsPlain_plantBranch planted)
    rcases List.mem_cons.1 mem with rfl | mem
    · exact ⟨_, _, _, first, .refl _, branch.trans others.continues⟩
    · rw [List.mem_singleton.1 mem]
      exact ⟨_, _, _, others, first.continues.trans branch, .refl _⟩

/-- **Within a call that ends all calls end**, and the drafts that they work on come one after the
other. -/
theorem Within.ends (within : C'.Within C) (ends : C.Ends ids rest d) :
    ∃ ids' rest' d', C'.Ends ids' rest' d' ∧ C.draft.Continues C'.draft ∧ d'.Continues d := by
  induction within with
  | refl => exact ⟨ids, rest, d, ends, .refl _, .refl d⟩
  | tail _ mem ih =>
    obtain ⟨ids', rest', d', inner, before, behind⟩ := ih
    obtain ⟨ids'', rest'', d'', innermost, before', behind'⟩ := inner.course.ends mem
    exact ⟨ids'', rest'', d'', innermost, before.trans before', behind'.trans behind⟩

/-- A text of which something is found out by reading it is a pattern. -/
theorem exists_of_ofPattern? {α : Type} {pattern : String} {f : Compiled → α} {a : α}
    (run : (Compiled.ofPattern? pattern).toOption.map f = some a) :
    ∃ c, Compiled.ofPattern? pattern = .ok c ∧ f c = a := by
  rcases read : Compiled.ofPattern? pattern with _ | c
  · rw [read] at run
    cases run
  · rw [read] at run
    exact ⟨c, rfl, Option.some.inj run⟩

/-- The call on a whole pattern. -/
def whole (pattern : String) : Call :=
  ⟨false, .branches, pattern.toList, {}⟩

/-- A pattern is read: the call on it ends with some branches and leaves nothing of it, and of the
branches the root is made, which gives the draft `d`. -/
structure Finishes (pattern : String) (c : Compiled) (first : ℕ) (more : List ℕ) (d₁ d : Draft) :
    Prop where
  ends : (whole pattern).Ends (first :: more) [] d₁
  planted : plantAlternatives first more d₁ = .ok c.root d
  finished : d.finish c.root = c
  sound : d.Sound
  distinct : d.Distinct

/-- A pattern that can be read is what the call on the whole of it ends with. -/
theorem exists_finishes {pattern : String} {c : Compiled}
    (h : Compiled.ofPattern? pattern = .ok c) :
    ∃ first more d₁ d, Finishes pattern c first more d₁ d := by
  obtain ⟨φ, d, finishes⟩ := Compiled.exists_finishes h
  have run := (wholePattern_eq_ok_iff stands_expandMacro).2 ⟨φ, finishes.spells, finishes.built⟩
  obtain ⟨first, more, d₁, ends, planted⟩ := wholePattern_eq_ok_iff_runs.1 run
  exact ⟨first, more, d₁, d, ends, planted, finishes.finished, finishes.sound, finishes.distinct⟩

/-- What the call on a whole pattern ends with makes up the pattern. -/
theorem ofPattern?_of_ends {pattern : String} {first root : ℕ} {more : List ℕ} {d₁ : Draft}
    (ends : (whole pattern).Ends (first :: more) [] d₁)
    (planted : plantAlternatives first more d₁ = .ok root d) :
    Compiled.ofPattern? pattern = .ok (d.finish root) := by
  have run : wholePattern expandMacro pattern.toList {} = .ok root d :=
    wholePattern_eq_ok_iff_runs.2 ⟨first, more, d₁, ends, planted⟩
  rw [Compiled.ofPattern?, Draft.read]
  simp only [run]

/-- All calls of a reading end, and what they have done stays. -/
theorem Finishes.ends_of_within {pattern : String} {c : Compiled} {first : ℕ} {more : List ℕ}
    {d₁ d : Draft} (h : Finishes pattern c first more d₁ d) (within : C.Within (whole pattern)) :
    ∃ ids rest d', C.Ends ids rest d' ∧ d'.Continues d := by
  obtain ⟨ids, rest, d', ends, -, continues⟩ := within.ends h.ends
  have root := carried_continues.plain (addsPlain_plantAlternatives h.planted)
  exact ⟨ids, rest, d', ends, continues.trans root⟩

/-! ## How many nodes there are -/

theorem size_of_plant (d : Draft) (shape : Shape) : (d.plant shape).tree.size = d.tree.size + 1 :=
  Tree.size_adopt d.tree shape

/-- A group that closes adds one node. -/
theorem exists_of_closeGroup {kind : GroupKind} {number : Option ℕ} {body : ℕ}
    (run : closeGroup kind number body d = .ok id d') :
    ∃ name capture numbered named, id = d.tree.size ∧
      d' = { d.plant (.group body name capture) with numbered, named } := by
  cases kind <;> cases number <;> cases run <;> exact ⟨_, _, _, _, rfl, rfl⟩

theorem size_le_of_addsPlain (adds : AddsPlain d d') : d.tree.size ≤ d'.tree.size := by
  rcases adds with rfl | ⟨shape, -, -, rfl⟩
  · exact le_rfl
  · rw [size_of_plant]
    omega

/-- The node of a branch is one of those given, or it is added. -/
theorem size_of_plantBranch (run : plantBranch ids d = .ok id d') :
    d.tree.size + 1 ≤ d'.tree.size + ids.length := by
  have grows := size_le_of_addsPlain (addsPlain_plantBranch run)
  cases ids with
  | nil =>
    cases run
    exact (size_of_plant d (.text [])).ge
  | cons node ids =>
    rw [List.length_cons]
    omega

/-- **Every node of the result is a new one**, so where there is one the tree has grown. -/
theorem Ends.size_le (ends : C.Ends ids rest d) :
    C.draft.tree.size + ids.length ≤ d.tree.size := by
  induction ends using Ends.induct with
  | step ends same course ih =>
    cases course with
    | atom _ _ _ built =>
      obtain ⟨shape, -, rfl, -⟩ := exists_plant_of_build_atom built
      exact (size_of_plant _ shape).ge
    | expansion _ _ _ inner planted =>
      have inside := ih _ List.mem_cons_self inner
      have outside := size_le_of_addsPlain (addsPlain_plantAlternatives planted)
      simp only [List.length_cons, List.length_nil] at inside ⊢
      omega
    | group _ opens inner planted closes =>
      have inside := ih _ List.mem_cons_self inner
      have outside := size_le_of_addsPlain (addsPlain_plantAlternatives planted)
      have before := (carried_continues.opens opens).size
      have behind := (carried_continues.closes closes).size
      simp only [List.length_cons, List.length_nil] at inside ⊢
      omega
    | @piece _ cs rest₁ rest₂ node id quantifier d d₁ d₂ inner _ planted =>
      have inside := ih _ List.mem_cons_self inner
      have between := (Draft.alike_markIf (atQuantifierMarker rest₁) { d₁ with marking := d.marking })
      have outside := size_le_of_addsPlain (addsPlain_repeated planted)
      have before := Draft.alike_markIf (atMarker cs) d
      have behind := Draft.alike_markFromIf (atClosingMarker rest₂) d.tree.size
        { d₂ with marking := d.marking }
      rw [between.tree] at outside
      rw [before.tree] at inside
      rw [behind.tree]
      simp only [List.length_cons, List.length_nil] at inside outside ⊢
      omega
    | stop => exact le_rfl
    | next _ first others =>
      have head := ih _ List.mem_cons_self first
      have tail := ih _ (List.mem_cons_of_mem _ List.mem_cons_self) others
      simp only [List.length_cons, List.length_nil] at head tail ⊢
      omega
    | last first _ planted =>
      have head := ih _ List.mem_cons_self first
      have branch := size_of_plantBranch planted
      simp only [List.length_cons, List.length_nil] at head ⊢
      omega
    | more first planted others =>
      have head := ih _ List.mem_cons_self first
      have branch := size_of_plantBranch planted
      have tail := ih _ (List.mem_cons_of_mem _ List.mem_cons_self) others
      simp only [List.length_cons] at head tail ⊢
      omega

end Call

end Reading

end PatternSampler
