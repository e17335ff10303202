/-
# Groups and backreferences in a reading

A group is open from its opening parenthesis to its closing one, that is, while the call on it is
carried out.  Its node is added at the end, so a backreference finds none of the groups that are
open.

* `Call.ReadsGroup` : a call reads a group, `Call.ReadsBackref` : a call reads a backreference.
* `Call.ReadsBackref.lt` : its node stands before the nodes of all groups that are open.
* `Call.Ends.addsRead` : every backreference in the tree is read by some call.
-/
import PatternSampler.Proofs.Reading.Within

namespace PatternSampler.Reading.Call

variable {B C G W : Call} {ids : List ℕ} {rest : List Char} {d : Draft} {id target : ℕ}

/-- A call on an atom reads a group of some kind, whose node is `id`; `rest` is left behind it. -/
structure ReadsGroup (G : Call) (kind : GroupKind) (id : ℕ) (rest : List Char) : Prop where
  level : G.level = .atom
  opens : ∃ tail inside, G.text = '(' :: tail ∧ readGroupHead tail = .ok (kind, inside)
  ends : ∃ d, G.Ends [id] rest d

/-- A call on an atom reads a backreference, whose node is `id` and which refers to the node
`target`. -/
structure ReadsBackref (B : Call) (a : Atom) (id target : ℕ) : Prop where
  level : B.level = .atom
  text : ∃ rest, B.text.head? ≠ some '(' ∧ readAtom B.text = .ok (a, rest)
  refers : a.RefersTo B.draft target
  ends : ∃ rest d, B.Ends [id] rest d

/-! ## Groups -/

/-- How the reader of a group gets from one draft to another one. -/
structure GroupCourse (G : Call) (kind : GroupKind) (id : ℕ) (rest : List Char) (d : Draft)
    (number : Option ℕ) (inner : Call) (body : ℕ) (d₂ d₃ : Draft) : Prop where
  calls : G.calls = [inner]
  opens : openGroup kind G.draft = .ok number inner.draft
  expanding : inner.expanding = G.expanding
  shorter : inner.text.length < G.text.length
  inside : ∃ first more, inner.Ends (first :: more) (')' :: rest) d₂ ∧
    plantAlternatives first more d₂ = .ok body d₃
  closes : closeGroup kind number body d₃ = .ok id d

theorem ReadsGroup.course {kind : GroupKind} (reads : G.ReadsGroup kind id rest) :
    ∃ d number inner body d₂ d₃, G.Ends [id] rest d ∧
      GroupCourse G kind id rest d number inner body d₂ d₃ := by
  obtain ⟨level, ⟨tail, inside, text, head⟩, d, ends⟩ := reads
  obtain ⟨expanding, level', cs, d₀⟩ := G
  obtain rfl : level' = .atom := level
  obtain rfl : cs = '(' :: tail := text
  refine ⟨d, ?_⟩
  generalize eq : calls ⟨expanding, .atom, '(' :: tail, d₀⟩ = made
  have course := eq ▸ ends.course
  cases course with
  | atom plain => exact absurd rfl plain
  | expansion plain => exact absurd rfl plain
  | @group _ _ inside' _ kind' number first body _ more _ d₁ d₂ d₃ _ head' opens inner planted
      closes =>
    obtain ⟨rfl, rfl⟩ := Prod.mk.inj (Except.ok.inj (head'.symm.trans head))
    have shorter := readGroupHead_length head
    exact ⟨number, _, body, d₂, d₃, ends, eq, opens, rfl, Nat.lt_succ_of_le shorter,
      ⟨first, more, inner, planted⟩, closes⟩

/-- The node of a group is added when the group closes. -/
theorem GroupCourse.node {kind : GroupKind} {number : Option ℕ} {inner : Call} {body : ℕ}
    {d₂ d₃ : Draft} (course : GroupCourse G kind id rest d number inner body d₂ d₃) :
    id = d₃.tree.size ∧ d₂.Continues d₃ := by
  obtain ⟨first, more, -, planted⟩ := course.inside
  obtain ⟨_, _, _, _, same, -⟩ := exists_of_closeGroup course.closes
  exact ⟨same, carried_continues.plain (addsPlain_plantAlternatives planted)⟩

/-- Whatever is read while a group is open has its nodes before the one of the group. -/
theorem ReadsGroup.size_le {kind : GroupKind} (reads : G.ReadsGroup kind id rest)
    (within : B.Within G) (other : B.text.head? ≠ some '(') :
    ∃ ids rest d, B.Ends ids rest d ∧ d.tree.size ≤ id := by
  obtain ⟨tail, inside, text, -⟩ := reads.opens
  obtain ⟨d, number, inner, body, d₂, d₃, -, course⟩ := reads.course
  rcases within_iff.1 within with rfl | ⟨first, mem, within'⟩
  · rw [text] at other
    exact absurd rfl other
  · rw [course.calls] at mem
    obtain rfl := List.mem_singleton.1 mem
    obtain ⟨first, more, inside, -⟩ := course.inside
    obtain ⟨ids, rest, d', ends, -, continues⟩ := within'.ends inside
    obtain ⟨same, continues'⟩ := course.node
    refine ⟨ids, rest, d', ends, ?_⟩
    rw [same]
    exact (continues.trans continues').size

/-! ## Backreferences -/

/-- A backreference adds one node. -/
theorem ReadsBackref.plant {a : Atom} (reads : B.ReadsBackref a id target) :
    id = B.draft.tree.size ∧ ∃ rest, B.Ends [id] rest (B.draft.plant (.backref target)) := by
  obtain ⟨level, ⟨rest, plain, read⟩, refers, rest', d, ends⟩ := reads
  obtain ⟨expanding, level', cs, d₀⟩ := B
  obtain rfl : level' = .atom := level
  generalize eq : calls ⟨expanding, .atom, cs, d₀⟩ = made
  have course := eq ▸ ends.course
  cases course with
  | atom plain' read' noMacro built =>
    obtain ⟨rfl, rfl⟩ := Prod.mk.inj (Except.ok.inj (read'.symm.trans read))
    obtain ⟨shape, rfl, rfl, -, refers'⟩ := exists_plant_of_build_atom built
    obtain rfl := (refers' target).2 refers
    exact ⟨rfl, _, ends⟩
  | expansion plain' read' =>
    obtain ⟨rfl, rfl⟩ := Prod.mk.inj (Except.ok.inj (read'.symm.trans read))
    exact refers.elim
  | group => exact absurd rfl plain

/-- **While a backreference is read, the nodes of the groups that are open have not been added.** -/
theorem ReadsBackref.lt {a : Atom} {kind : GroupKind} {group : ℕ}
    (reads : B.ReadsBackref a id target) (within : B.Within G)
    (opens : G.ReadsGroup kind group rest) : id < group := by
  obtain ⟨rest, plain, -⟩ := reads.text
  obtain ⟨same, rest', ends⟩ := reads.plant
  obtain ⟨ids, rest'', d, ends', le⟩ := opens.size_le within plain
  obtain ⟨-, -, rfl⟩ := ends.unique ends'
  rw [size_of_plant] at le
  omega

/-- A draft has no backreference that another one has not, but those that calls within a call read.
-/
def AddsRead (W : Call) (d d' : Draft) : Prop :=
  ∀ id target, d'.tree.shape? id = some (.backref target) →
    d.tree.shape? id = some (.backref target) ∨
      ∃ (B : Call) (a : Atom), B.Within W ∧ B.ReadsBackref a id target

theorem addsRead_plant {d : Draft} {shape : Shape}
    (read : ∀ target, shape = .backref target →
      ∃ (B : Call) (a : Atom), B.Within W ∧ B.ReadsBackref a d.tree.size target) :
    AddsRead W d (d.plant shape) := by
  intro id target look
  rw [Draft.shape?_plant] at look
  split at look
  · next same =>
    rw [same]
    exact .inr (read target (Option.some.inj look))
  · exact .inl look

theorem carried_addsRead (W : Call) : Carried (AddsRead W) where
  refl := fun _ _ _ look => .inl look
  trans := by
    intro d d' d'' first second id target look
    rcases second id target look with look | read
    · exact first id target look
    · exact .inr read
  plants := by
    intro d shape plain _
    apply addsRead_plant
    intro target same
    exact absurd same (plain target)
  opens := by
    intro kind number d d' run id target look
    cases kind <;> cases run <;> exact .inl look
  closes := by
    intro kind number body id d d' run
    obtain ⟨name, capture, numbered, named, -, rfl⟩ := exists_of_closeGroup run
    have planted : AddsRead W d (d.plant (.group body name capture)) := by
      apply addsRead_plant
      intro target same
      cases same
    exact planted
  marks := by
    intro d present id target look
    rw [(Draft.alike_markIf present d).tree] at look
    exact .inl look
  marksFrom := by
    intro d present first id target look
    rw [(Draft.alike_markFromIf present first d).tree] at look
    exact .inl look
  restores := fun _ _ _ _ look => .inl look

/-- **Every backreference in the tree is read by some call.** -/
theorem Ends.addsRead (ends : C.Ends ids rest d) : AddsRead C C.draft d := by
  apply ends.carried (carried_addsRead C)
  intro expanding cs rest a id d₁ d₂ within plain read noMacro built
  obtain ⟨shape, rfl, rfl, -, refers⟩ := exists_plant_of_build_atom built
  have here : Ends ⟨expanding, .atom, cs, d₁⟩ [d₁.tree.size] rest (d₁.plant shape) :=
    (Course.atom plain read noMacro built).toEnds
  apply addsRead_plant
  intro target same
  exact ⟨_, a, within, rfl, ⟨rest, plain, read⟩, (refers target).1 same, rest, _, here⟩

end PatternSampler.Reading.Call
