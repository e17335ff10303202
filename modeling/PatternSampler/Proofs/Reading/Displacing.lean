/-
# Nodes of phrases in parentheses

When some parts of a phrase are put in parentheses, the same nodes are made of it as before, and
right behind the nodes of those parts there are groups.  All that a draft keeps is kept of the same
nodes: marks, closed groups, and what backreferences refer to.

* `Draft.Enclosed` : a draft with some nodes in groups, and each step of making nodes in it.
* `Phrase.Encloses.displaces` : nodes of phrases in parentheses.
* `Draft.Enclosed.finish` : the finished pattern.
-/
import PatternSampler.Proofs.Reading.Enclosing
import PatternSampler.Proofs.Reading.Within
import PatternSampler.Proofs.Tree.Enclosing

namespace PatternSampler

open Reading PatternSampler.Tree

/-- A node may be added behind those that it refers to. -/
theorem Tree.Ordered.adopt {t : Tree} {shape : Shape} (ordered : t.Ordered)
    (earlier : ∀ r ∈ shape.references, r < t.size) : (t.adopt shape).Ordered := by
  intro id found look r mem
  rw [shape?_adopt] at look
  split at look
  · next eq =>
    cases look
    exact eq ▸ earlier r mem
  · exact ordered id found look r mem

/-! ## Drafts -/

/-- A node is marked where it is added, if nodes are marked there. -/
theorem Draft.mem_candidates_plant {d : Draft} {shape : Shape} {place : ℕ} :
    place ∈ (d.plant shape).candidates ↔
      place ∈ d.candidates ∨ d.marking = true ∧ place = d.tree.size := by
  show place ∈ (if d.marking then d.candidates.push d.tree.size else d.candidates) ↔ _
  split
  · next marking => rw [Array.mem_push, and_iff_right marking]
  · next marking => exact (or_iff_left fun both => marking both.1).symm

/-- A draft is another one with the nodes of `s` in groups.  Of the other one it is known that nodes
refer to earlier ones and that what has been put down as a closed group is a group. -/
structure Draft.Enclosed (s : Finset ℕ) (d d' : Draft) : Prop where
  tree : d.tree.Enclosed s d'.tree
  marking : d'.marking = d.marking
  hasMarker : d'.hasMarker = d.hasMarker
  opened : d'.opened = d.opened
  numbered : d'.numbered = d.numbered.map (Prod.map id (outer s))
  named : d'.named = d.named.map (Prod.map id (outer s))
  marked : ∀ id, inner s id ∈ d'.candidates ↔ id ∈ d.candidates
  bounded : ∀ place ∈ d'.candidates, place < d'.tree.size
  ordered : d.tree.Ordered
  closed : ∀ id, (∃ n, (n, id) ∈ d.numbered) ∨ (∃ name, (name, id) ∈ d.named) →
    ∃ body name capture, d.tree.shape? id = some (.group body name capture)

namespace Draft.Enclosed

variable {s s' : Finset ℕ} {d d' : Draft} {shape : Shape} {id : ℕ}

theorem empty : Enclosed ∅ {} {} where
  tree := .empty
  marking := rfl
  hasMarker := rfl
  opened := rfl
  numbered := by simp
  named := by simp
  marked := by simp
  bounded := by simp
  ordered := by
    intro id shape look
    simp [shape?] at look
  closed := by simp

/-- The next node has no group yet. -/
theorem outer_size (h : Enclosed s d d') : outer s d.tree.size = d'.tree.size := by
  rw [h.tree.size]
  exact outer_of_notMem fun mem => lt_irrefl _ (h.tree.lt_size mem)

/-- A group that has been put down as closed is not put in another one. -/
theorem notMem_of_closed (h : Enclosed s d d')
    (closed : (∃ n, (n, id) ∈ d.numbered) ∨ ∃ name, (name, id) ∈ d.named) : id ∉ s := by
  obtain ⟨body, name, capture, group⟩ := h.closed id closed
  exact h.tree.notMem_of_group group

/-- A closed group has a node. -/
theorem lt_size_of_closed (h : Enclosed s d d')
    (closed : (∃ n, (n, id) ∈ d.numbered) ∨ ∃ name, (name, id) ∈ d.named) : id < d.tree.size := by
  obtain ⟨_, _, _, look⟩ := h.closed id closed
  exact lt_size_of_shape? look

/-! ### Marks -/

theorem setMarking (h : Enclosed s d d') (marking : Bool) :
    Enclosed s { d with marking } { d' with marking } :=
  ⟨h.tree, rfl, h.hasMarker, h.opened, h.numbered, h.named, h.marked, h.bounded, h.ordered,
    h.closed⟩

theorem markIf (h : Enclosed s d d') (present : Bool) :
    Enclosed s (d.markIf present) (d'.markIf present) := by
  cases present with
  | false => exact h
  | true =>
    exact ⟨h.tree, rfl, rfl, h.opened, h.numbered, h.named, h.marked, h.bounded, h.ordered,
      h.closed⟩

/-- From a place on the same nodes are marked, and with them groups, which do not count. -/
theorem markFrom (h : Enclosed s d d') (first : ℕ) :
    Enclosed s (d.markFrom first) (d'.markFrom (inner s first)) := by
  refine ⟨h.tree, h.marking, rfl, h.opened, h.numbered, h.named, fun id => ?_, fun place mem => ?_,
    h.ordered, h.closed⟩
  · have size := h.tree.size
    have le := (inner_strictMono s).le_iff_le (a := first) (b := id)
    have lt := (inner_strictMono s).lt_iff_lt (a := id) (b := d.tree.size)
    show inner s id ∈ d'.candidates ++ Array.range' _ _ ↔ id ∈ d.candidates ++ Array.range' _ _
    rw [Array.mem_append, Array.mem_append, h.marked, Array.mem_range'_1, Array.mem_range'_1]
    refine or_congr_right ?_
    omega
  · rcases Array.mem_append.1 mem with mem | mem
    · exact h.bounded place mem
    · have range := Array.mem_range'_1.1 mem
      show place < d'.tree.size
      omega

theorem markFromIf (h : Enclosed s d d') (present : Bool) (first : ℕ) :
    Enclosed s (d.markFromIf present first) (d'.markFromIf present (inner s first)) := by
  cases present with
  | false => exact h
  | true => exact h.markFrom first

/-! ### Nodes -/

/-- A node is added in front of all that come later. -/
theorem plant (h : Enclosed s d d') (earlier : ∀ r ∈ shape.references, r < d.tree.size) :
    Enclosed s (d.plant shape) (d'.plant (shape.moved (outer s))) where
  tree := h.tree.adopt shape
  marking := h.marking
  hasMarker := h.hasMarker
  opened := h.opened
  numbered := h.numbered
  named := h.named
  marked := by
    intro id
    rw [mem_candidates_plant, mem_candidates_plant, h.marked, h.marking, h.tree.size,
      (inner_strictMono s).injective.eq_iff]
  bounded := by
    intro place mem
    show place < (d'.tree.adopt _).size
    rw [size_adopt]
    rcases mem_candidates_plant.1 mem with mem | ⟨-, rfl⟩
    · exact (h.bounded place mem).trans (Nat.lt_succ_self _)
    · exact Nat.lt_succ_self _
  ordered := h.ordered.adopt earlier
  closed := by
    intro id closed
    obtain ⟨body, name, capture, look⟩ := h.closed id closed
    exact ⟨body, name, capture, shape?_plant_of look⟩

/-- The last node is put in a group. -/
theorem enclose (h : Enclosed s d d') (last : d.tree.size = id + 1)
    (look : d.tree.shape? id = some shape) (enclosable : shape.Enclosable) (other : id ∉ s) :
    Enclosed (insert id s) d (d'.plant (.group (inner s id) none none)) := by
  have same : ∀ i < id, i ∈ insert id s ↔ i ∈ s := fun _ => mem_insert_iff
  -- groups that are closed stand before the last node
  have before {i : ℕ} (closed : (∃ n, (n, i) ∈ d.numbered) ∨ ∃ name, (name, i) ∈ d.named) :
      outer s i = outer (insert id s) i := by
    have lt := h.lt_size_of_closed closed
    have ne : i ≠ id := by
      rintro rfl
      obtain ⟨body, name, capture, group⟩ := h.closed i closed
      obtain rfl := Option.some.inj (group.symm.trans look)
      cases enclosable
    exact (outer_congr same (by omega)).symm
  have tree := h.tree.enclose h.ordered last look enclosable other
  have size := tree.size
  rw [size_adopt, last] at size
  refine ⟨tree, h.marking, h.hasMarker, h.opened, ?_, ?_, fun i => ?_, fun place mem => ?_,
    h.ordered, h.closed⟩
  · refine h.numbered.trans (Array.map_congr_left fun entry mem => ?_)
    exact congrArg (Prod.mk entry.1) (before (.inl ⟨_, mem⟩))
  · refine h.named.trans (Array.map_congr_left fun entry mem => ?_)
    exact congrArg (Prod.mk entry.1) (before (.inr ⟨_, mem⟩))
  · rw [mem_candidates_plant]
    by_cases le : i ≤ id
    · have lt : inner s i < d'.tree.size := by
        rw [h.tree.size, last]
        exact inner_strictMono s (Nat.lt_succ_of_le le)
      rw [inner_congr same le, h.marked]
      exact or_iff_left fun both => lt.ne both.2
    · -- behind the last node nothing is marked
      have behind : d'.tree.size + 1 ≤ inner (insert id s) i :=
        size ▸ (inner_strictMono _).monotone (not_le.1 le)
      refine iff_of_false ?_ fun mem => ?_
      · rintro (mem | ⟨-, eq⟩)
        · have := h.bounded _ mem
          omega
        · omega
      · have lt := h.bounded _ ((h.marked i).2 mem)
        rw [h.tree.size, last] at lt
        exact le (Nat.le_of_lt_succ ((inner_strictMono s).lt_iff_lt.1 lt))
  · show place < (d'.tree.adopt _).size
    rw [size_adopt]
    rcases mem_candidates_plant.1 mem with mem | ⟨-, rfl⟩
    · exact (h.bounded place mem).trans (Nat.lt_succ_self _)
    · exact Nat.lt_succ_self _

/-! ### Groups -/

/-- A number leads to the same group, where it stands now. -/
theorem groupOfNumber? (h : Enclosed s d d') (number : ℕ) :
    d'.groupOfNumber? number = (d.groupOfNumber? number).map (outer s) := by
  unfold Draft.groupOfNumber?
  have same : (fun entry : ℕ × ℕ => entry.1 == number) ∘ Prod.map id (outer s) =
      fun entry => entry.1 == number := rfl
  rw [h.numbered, h.named, h.opened, Array.find?_map, same]
  cases d.numbered.find? fun entry => entry.1 == number with
  | some entry => rfl
  | none =>
    rw [Array.getElem?_map, Option.map_none]
    dsimp only
    split
    · rw [Option.map_map, Option.map_map]
      rfl
    · rfl

/-- A name leads to the same group, where it stands now. -/
theorem groupOfName? (h : Enclosed s d d') (name : String) :
    d'.groupOfName? name = (d.groupOfName? name).map (outer s) := by
  rw [Draft.groupOfName?, Draft.groupOfName?, h.named, Array.find?_map, Option.map_map,
    Option.map_map]
  rfl

/-- A numbered group closes, which is not put in a group itself. -/
theorem push_numbered (h : Enclosed s d d') (n : ℕ) {body : ℕ} {name : Option String}
    {capture : Option ℕ} (look : d.tree.shape? id = some (.group body name capture)) :
    Enclosed s { d with numbered := d.numbered.push (n, id) }
      { d' with numbered := d'.numbered.push (n, outer s id) } where
  tree := h.tree
  marking := h.marking
  hasMarker := h.hasMarker
  opened := h.opened
  numbered := by
    rw [h.numbered, Array.map_push]
    rfl
  named := h.named
  marked := h.marked
  bounded := h.bounded
  ordered := h.ordered
  closed := by
    rintro id' (⟨n', mem⟩ | named)
    · rcases Array.mem_push.1 mem with mem | same
      · exact h.closed id' (.inl ⟨n', mem⟩)
      · cases same
        exact ⟨body, name, capture, look⟩
    · exact h.closed id' (.inr named)

/-- A named group closes, which is not put in a group itself. -/
theorem push_named (h : Enclosed s d d') (called : String) {body : ℕ} {name : Option String}
    {capture : Option ℕ} (look : d.tree.shape? id = some (.group body name capture)) :
    Enclosed s { d with named := d.named.push (called, id) }
      { d' with named := d'.named.push (called, outer s id) } where
  tree := h.tree
  marking := h.marking
  hasMarker := h.hasMarker
  opened := h.opened
  numbered := h.numbered
  named := by
    rw [h.named, Array.map_push]
    rfl
  marked := h.marked
  bounded := h.bounded
  ordered := h.ordered
  closed := by
    rintro id' (numbered | ⟨called', mem⟩)
    · exact h.closed id' (.inl numbered)
    · rcases Array.mem_push.1 mem with mem | same
      · exact h.closed id' (.inr ⟨called', mem⟩)
      · cases same
        exact ⟨body, name, capture, look⟩

/-- A group that opens gets the same number. -/
theorem openGroup (h : Enclosed s d d') {kind : GroupKind} {number : Option ℕ} {d₁ : Draft}
    (opens : Reading.openGroup kind d = .ok number d₁) :
    ∃ d₁', Reading.openGroup kind d' = .ok number d₁' ∧ Enclosed s d₁ d₁' ∧
      d₁.tree = d.tree := by
  cases kind with
  | numbered =>
    cases opens
    rw [← h.opened]
    exact ⟨_, rfl, ⟨h.tree, h.marking, h.hasMarker, rfl, h.numbered, h.named, h.marked, h.bounded,
      h.ordered, h.closed⟩, rfl⟩
  | named name =>
    cases opens
    exact ⟨d', rfl, h, rfl⟩
  | plain =>
    cases opens
    exact ⟨d', rfl, h, rfl⟩

end Draft.Enclosed

/-! ## Making nodes -/

theorem Tree.Row.eq_of_singleton {R : ℕ → ℕ → Prop} {first id stop : ℕ}
    (row : Row R first [id] stop) : stop = id + 1 := by
  cases row with
  | cons _ _ others =>
    cases others
    rfl

/-- One part and several more behind it. -/
theorem Tree.Row.append {R : ℕ → ℕ → Prop} {first id middle stop : ℕ} {ids : List ℕ}
    (head : Row R first [id] middle) (tail : Row R middle ids stop) :
    Row R first (id :: ids) stop := by
  obtain rfl := head.eq_of_singleton
  cases head with
  | cons le part _ => exact .cons le part tail

/-- A draft is another one with the nodes of `s` in groups, and from `start` on it consists of some
parts. -/
structure Draft.EnclosedRow (start : ℕ) (ids : List ℕ) (s : Finset ℕ) (d d' : Draft) : Prop where
  enclosed : d.Enclosed s d'
  row : Row (fun _ _ => True) start ids d.tree.size

namespace Draft.EnclosedRow

variable {start : ℕ} {ids : List ℕ} {s : Finset ℕ} {d d' d₁ : Draft} {shape : Shape} {id : ℕ}

/-- A node is put on top of some parts. -/
theorem adopt (h : EnclosedRow start ids s d d')
    (earlier : ∀ r ∈ shape.references, r < d.tree.size) :
    EnclosedRow start [d.tree.size] s (d.plant shape) (d'.plant (shape.moved (outer s))) where
  enclosed := h.enclosed.plant earlier
  row := by
    show Row _ start [d.tree.size] (d.tree.adopt shape).size
    rw [size_adopt]
    exact .cons h.row.le trivial (.nil _)

theorem plant (h : EnclosedRow start ids s d d') (earlier : ∀ r ∈ shape.references, r < d.tree.size)
    (run : Reading.plant shape d = .ok id d₁) :
    ∃ d₁', Reading.plant (shape.moved (outer s)) d' = .ok (outer s id) d₁' ∧
      EnclosedRow start [id] s d₁ d₁' := by
  cases run
  rw [h.enclosed.outer_size]
  exact ⟨_, rfl, h.adopt earlier⟩

/-- Of a node that owns its references, these are the parts below it. -/
theorem plant_row (h : EnclosedRow start ids s d d') (refs : shape.references = ids)
    (run : Reading.plant shape d = .ok id d₁) :
    ∃ d₁', Reading.plant (shape.moved (outer s)) d' = .ok (outer s id) d₁' ∧
      EnclosedRow start [id] s d₁ d₁' :=
  h.plant (fun r mem => (h.row.bounds r (refs ▸ mem)).2) run

/-- A quantifier adds its node to both drafts, or to neither. -/
theorem repeated {node : ℕ} {quantifier : Option Quantifier} (h : EnclosedRow start [node] s d d')
    (run : Phrase.repeated quantifier node d = .ok id d₁) :
    ∃ d₁', Phrase.repeated quantifier (outer s node) d' = .ok (outer s id) d₁' ∧
      EnclosedRow start [id] s d₁ d₁' := by
  cases quantifier with
  | none =>
    cases run
    exact ⟨d', rfl, h⟩
  | some q => exact h.plant_row rfl run

/-- A branch adds its node to both drafts, or to neither. -/
theorem plantBranch (h : EnclosedRow start ids s d d')
    (run : Reading.plantBranch ids d = .ok id d₁) :
    ∃ d₁', Reading.plantBranch (ids.map (outer s)) d' = .ok (outer s id) d₁' ∧
      EnclosedRow start [id] s d₁ d₁' := by
  match ids with
  | [] => exact h.plant_row rfl run
  | [piece] =>
    cases run
    exact ⟨d', rfl, h⟩
  | _ :: _ :: _ => exact h.plant_row rfl run

/-- A choice adds its node to both drafts, or to neither. -/
theorem plantAlternatives {first : ℕ} (h : EnclosedRow start (first :: ids) s d d')
    (run : Reading.plantAlternatives first ids d = .ok id d₁) :
    ∃ d₁', Reading.plantAlternatives (outer s first) (ids.map (outer s)) d' =
      .ok (outer s id) d₁' ∧ EnclosedRow start [id] s d₁ d₁' := by
  match ids with
  | [] =>
    cases run
    exact ⟨d', rfl, h⟩
  | _ :: _ => exact h.plant_row rfl run

/-- A group adds its node to both drafts. -/
theorem closeGroup {body : ℕ} {kind : GroupKind} {number : Option ℕ}
    (h : EnclosedRow start [body] s d d')
    (closes : Reading.closeGroup kind number body d = .ok id d₁) :
    ∃ d₁', Reading.closeGroup kind number (outer s body) d' = .ok (outer s id) d₁' ∧
      EnclosedRow start [id] s d₁ d₁' := by
  have earlier : ∀ r ∈ [body], r < d.tree.size := fun r mem => (h.row.bounds r mem).2
  have own := h.enclosed.outer_size
  have planted (name : Option String) (capture : Option ℕ) : EnclosedRow start [d.tree.size] s
      (d.plant (.group body name capture)) (d'.plant (.group (outer s body) name capture)) :=
    h.adopt earlier
  have capturing (n : ℕ) : EnclosedRow start [d.tree.size] s
      { d.plant (.group body none (some n)) with numbered := d.numbered.push (n, d.tree.size) }
      { d'.plant (.group (outer s body) none (some n)) with
        numbered := d'.numbered.push (n, d'.tree.size) } := by
    have noted := (planted none (some n)).enclosed.push_numbered n (shape?_plant_size d _)
    rw [own] at noted
    exact ⟨noted, (planted none (some n)).row⟩
  cases kind with
  | named name =>
    cases closes
    have noted := (planted (some name) none).enclosed.push_named name (shape?_plant_size d _)
    rw [own] at noted ⊢
    exact ⟨_, rfl, noted, (planted (some name) none).row⟩
  | numbered | plain =>
    cases number <;> cases closes <;> rw [own]
    · exact ⟨_, rfl, planted none none⟩
    · exact ⟨_, rfl, capturing _⟩

/-- Marks do not count for parts. -/
theorem alike {d₂ d₂' : Draft} (h : EnclosedRow start ids s d d') (enclosed : d₂.Enclosed s d₂')
    (tree : d₂.tree = d.tree) : EnclosedRow start ids s d₂ d₂' :=
  ⟨enclosed, tree ▸ h.row⟩

end Draft.EnclosedRow

namespace Phrase

variable {allowed : Bool} {s : Finset ℕ} {d d' d₁ : Draft} {φ : Phrase} {φs φs' : List Phrase}
  {id : ℕ} {ids : List ℕ}

/-- Of a phrase that begins with a set a node is made that may be put in a group. -/
theorem StartsWithSet.exists_enclosable (starts : φ.StartsWithSet) (run : φ.build d = .ok id d₁) :
    ∃ shape, d₁.tree.shape? id = some shape ∧ shape.Enclosable := by
  obtain ⟨marks, set, quantifier, others, more, rfl⟩ := starts
  obtain ⟨node, ids, d₂, d₃, first, further, planted⟩ := build_choice_eq_ok.1 run
  cases more with
  | cons ψ more =>
    obtain ⟨_, _, _, -, -, rfl⟩ := buildAll_cons_eq_ok.1 further
    cases planted
    exact ⟨_, Draft.shape?_plant_size _ _, .alternation _⟩
  | nil =>
    obtain ⟨rfl, rfl⟩ := buildAll_nil_eq_ok.1 further
    cases planted
    obtain ⟨nodes, d₄, built, planted⟩ := build_branch_eq_ok.1 first
    obtain ⟨piece, d₅, rest, here, behind, rfl⟩ := buildAll_cons_eq_ok.1 built
    cases others with
    | cons ψ others =>
      obtain ⟨_, _, _, -, -, rfl⟩ := buildAll_cons_eq_ok.1 behind
      cases planted
      exact ⟨_, Draft.shape?_plant_size _ _, .concat _⟩
    | nil =>
      obtain ⟨rfl, rfl⟩ := buildAll_nil_eq_ok.1 behind
      cases planted
      obtain ⟨atom, d₆, d₇, inner, repeated, rfl⟩ := build_piece_eq_ok.1 here
      have marked (d : Draft) (first : ℕ) : (d.markFromIf marks.closing first).tree = d.tree :=
        (Draft.alike_markFromIf marks.closing first d).tree
      have marked' (d : Draft) : (d.markIf marks.inner).tree = d.tree :=
        (Draft.alike_markIf marks.inner d).tree
      rw [marked]
      cases inner
      cases quantifier with
      | none =>
        cases repeated
        refine ⟨.set set, ?_, .set set⟩
        rw [marked']
        exact Draft.shape?_plant_size _ _
      | some q =>
        cases repeated
        exact ⟨_, Draft.shape?_plant_size _ _, .repetition _ _ _⟩

/-- What becomes of nodes that are made of phrases when parts of these are put in parentheses: later
nodes are in groups, too, if it is allowed. -/
def Displaces (allowed : Bool) (φs' : List Phrase) (s : Finset ℕ) (d d' : Draft) (ids : List ℕ)
    (d₁ : Draft) : Prop :=
  ∃ s' d₁', buildAll φs' d' = .ok (ids.map (outer s')) d₁' ∧
    d₁.EnclosedRow d.tree.size ids s' d₁' ∧ (∀ i < d.tree.size, i ∈ s' ↔ i ∈ s) ∧
    (allowed = false → s' = s)

/-- An atom that is no macro adds the same node. -/
theorem displaces_atom (enclosed : d.Enclosed s d') {a : Atom}
    (run : (Phrase.atom a).build d = .ok id d₁) : Displaces allowed [.atom a] s d d' [id] d₁ := by
  have nothing : d.EnclosedRow d.tree.size [] s d' := ⟨enclosed, .nil _⟩
  have planted (d₁' : Draft) (run' : (Phrase.atom a).build d' = .ok (outer s id) d₁')
      (row : d₁.EnclosedRow d.tree.size [id] s d₁') : Displaces allowed [.atom a] s d d' [id] d₁ :=
    ⟨s, d₁', buildAll_singleton_eq_ok.2 run', row, fun _ _ => Iff.rfl, fun _ => rfl⟩
  rw [build] at run planted
  cases a with
  | text | set =>
    obtain ⟨d₁', run', row⟩ := nothing.plant_row rfl run
    exact planted d₁' run' row
  | backrefNumber number =>
    obtain ⟨target, found, run⟩ := plantAtom_backrefNumber_eq_ok_iff.1 run
    have earlier : ∀ r ∈ (Shape.backref target).references, r < d.tree.size :=
      List.forall_mem_singleton.2 (enclosed.lt_size_of_closed (closed_of_groupOfNumber? found))
    obtain ⟨d₁', run', row⟩ := nothing.plant earlier run
    refine planted d₁' (plantAtom_backrefNumber_eq_ok_iff.2 ⟨outer s target, ?_, run'⟩) row
    rw [enclosed.groupOfNumber?, found]
    rfl
  | backrefName name =>
    obtain ⟨target, found, run⟩ := plantAtom_backrefName_eq_ok_iff.1 run
    have earlier : ∀ r ∈ (Shape.backref target).references, r < d.tree.size :=
      List.forall_mem_singleton.2 (enclosed.lt_size_of_closed (closed_of_groupOfName? found))
    obtain ⟨d₁', run', row⟩ := nothing.plant earlier run
    refine planted d₁' (plantAtom_backrefName_eq_ok_iff.2 ⟨outer s target, ?_, run'⟩) row
    rw [enclosed.groupOfName?, found]
    rfl
  | macroName name => cases run

/-- A part is put in parentheses in which none was before. -/
theorem displaces_enclose (starts : φ.StartsWithSet) (enclosed : d.Enclosed s d')
    (inner : Displaces false [φ] s d d' [id] d₁) (built : φ.build d = .ok id d₁) :
    Displaces true [.group .plain φ] s d d' [id] d₁ := by
  obtain ⟨_, d₁', run, ⟨enclosed', row⟩, same, none⟩ := inner
  obtain rfl := (none rfl).symm
  have bounds := row.bounds id List.mem_cons_self
  have other : id ∉ s := fun mem => absurd (enclosed.tree.lt_size mem) (not_lt.2 bounds.1)
  have last := row.eq_of_singleton
  obtain ⟨shape, look, enclosable⟩ := starts.exists_enclosable built
  have grouped := enclosed'.enclose last look enclosable other
  have before : ∀ i < d.tree.size, i ∈ insert id s ↔ i ∈ s :=
    fun i lt => mem_insert_iff (lt.trans_le bounds.1)
  refine ⟨insert id s, _, buildAll_singleton_eq_ok.2 (build_group_eq_ok.2
    ⟨.none, _, d', d₁', rfl, buildAll_singleton_eq_ok.1 run, ?_⟩), ⟨grouped, row⟩, before, nofun⟩
  rw [outer_insert other, outer_of_notMem other, ← last, ← enclosed'.tree.size]
  rfl

/-- **The same nodes are made of phrases in parentheses**, and groups behind the nodes of those
parts that have been put in some. -/
theorem Encloses.displaces (h : Encloses allowed φs φs') (enclosed : d.Enclosed s d')
    (run : buildAll φs d = .ok ids d₁) : Displaces allowed φs' s d d' ids d₁ := by
  induction h generalizing s d d' d₁ ids with
  | nil =>
    obtain ⟨rfl, rfl⟩ := buildAll_nil_eq_ok.1 run
    exact ⟨s, d', rfl, ⟨enclosed, .nil _⟩, fun _ _ => Iff.rfl, fun _ => rfl⟩
  | cons _ _ ih ih' =>
    obtain ⟨id, d₂, others, head, tail, rfl⟩ := buildAll_cons_eq_ok.1 run
    obtain ⟨s₁, d₂', run₁, first, same₁, none₁⟩ := ih enclosed (buildAll_singleton_eq_ok.2 head)
    obtain ⟨s₂, d₁', run₂, more, same₂, none₂⟩ := ih' first.enclosed tail
    have lt := (first.row.bounds id List.mem_cons_self).2
    refine ⟨s₂, d₁', buildAll_cons_eq_ok.2 ⟨outer s₂ id, d₂', _, ?_, run₂, rfl⟩,
      ⟨more.enclosed, first.row.append more.row⟩, fun i lt' => ?_,
      fun off => (none₂ off).trans (none₁ off)⟩
    · rw [outer_congr same₂ lt]
      exact buildAll_singleton_eq_ok.1 run₁
    · exact (same₂ i (lt'.trans_le first.row.le)).trans (same₁ i lt')
  | atom a =>
    obtain ⟨id, rfl, built⟩ := exists_build_of_buildAll run
    exact displaces_atom enclosed built
  | group kind _ ih =>
    obtain ⟨id, rfl, built⟩ := exists_build_of_buildAll run
    obtain ⟨number, node, d₂, d₃, opens, built, closes⟩ := build_group_eq_ok.1 built
    obtain ⟨d₂', opens', enclosed, tree⟩ := enclosed.openGroup opens
    obtain ⟨s', d₃', run', row, same, none⟩ := ih enclosed (buildAll_singleton_eq_ok.2 built)
    rw [tree] at row same
    obtain ⟨d₁', closes', row⟩ := row.closeGroup closes
    exact ⟨s', d₁', buildAll_singleton_eq_ok.2 (build_group_eq_ok.2
      ⟨number, _, d₂', d₃', opens', buildAll_singleton_eq_ok.1 run', closes'⟩), row, same, none⟩
  | piece marks quantifier _ ih =>
    obtain ⟨id, rfl, built⟩ := exists_build_of_buildAll run
    obtain ⟨node, d₂, d₃, body, repeated, rfl⟩ := build_piece_eq_ok.1 built
    obtain ⟨s', d₂', run', row, same, none⟩ :=
      ih (enclosed.markIf marks.leading) (buildAll_singleton_eq_ok.2 body)
    rw [(Draft.alike_markIf marks.leading d).tree] at row same
    have between := (row.enclosed.setMarking d.marking).markIf marks.inner
    have row := row.alike between (Draft.alike_markIf marks.inner _).tree
    obtain ⟨d₃', repeated', row⟩ := row.repeated repeated
    have behind := (row.enclosed.setMarking d.marking).markFromIf marks.closing d.tree.size
    -- what was there before the piece is where it was
    rw [inner_congr same le_rfl, ← enclosed.tree.size] at behind
    rw [← enclosed.marking] at repeated' behind
    refine ⟨s', _, buildAll_singleton_eq_ok.2 (build_piece_eq_ok.2
      ⟨_, d₂', d₃', buildAll_singleton_eq_ok.1 run', repeated', rfl⟩), ?_, same, none⟩
    rw [enclosed.marking] at behind ⊢
    exact row.alike behind (Draft.alike_markFromIf marks.closing _ _).tree
  | branch _ ih =>
    obtain ⟨id, rfl, built⟩ := exists_build_of_buildAll run
    obtain ⟨nodes, d₂, built, planted⟩ := build_branch_eq_ok.1 built
    obtain ⟨s', d₂', run', row, same, none⟩ := ih enclosed built
    obtain ⟨d₁', planted', row⟩ := row.plantBranch planted
    exact ⟨s', d₁', buildAll_singleton_eq_ok.2 (build_branch_eq_ok.2 ⟨_, d₂', run', planted'⟩), row,
      same, none⟩
  | choice _ ih =>
    obtain ⟨id, rfl, built⟩ := exists_build_of_buildAll run
    obtain ⟨node, others, d₂, d₃, head, tail, planted⟩ := build_choice_eq_ok.1 built
    obtain ⟨s', d₃', run', row, same, none⟩ :=
      ih enclosed (buildAll_cons_eq_ok.2 ⟨node, d₂, others, head, tail, rfl⟩)
    obtain ⟨d₁', planted', row⟩ := row.plantAlternatives planted
    obtain ⟨_, d₂', _, head', tail', eq⟩ := buildAll_cons_eq_ok.1 run'
    cases eq
    exact ⟨s', d₁', buildAll_singleton_eq_ok.2 (build_choice_eq_ok.2
      ⟨_, _, d₂', d₃', head', tail', planted'⟩), row, same, none⟩
  | enclose starts _ ih =>
    obtain ⟨id, rfl, built⟩ := exists_build_of_buildAll run
    exact displaces_enclose starts enclosed (ih enclosed run) built

end Phrase

/-! ## Finished patterns -/

theorem Shape.moved_renumbered (f : ℕ → ℕ) (shape : Shape) (number : Option ℕ) :
    (shape.renumbered number).moved f = (shape.moved f).renumbered number := by
  cases number with
  | none => rfl
  | some n => cases shape <;> rfl

theorem Shape.Enclosable.renumbered {shape : Shape} (h : shape.Enclosable) (number : Option ℕ) :
    (shape.renumbered number).Enclosable := by
  cases number with
  | none => exact h
  | some n => cases h <;> constructor

/-- The numbers of groups go along with the groups. -/
theorem numberOf?_map {entries : List ((String × ℕ) × ℕ)} {f : ℕ → ℕ} {id place : ℕ}
    (same : ∀ entry ∈ entries, f entry.1.2 = place ↔ entry.1.2 = id) :
    numberOf? (entries.map fun entry => ((entry.1.1, f entry.1.2), entry.2)) place =
      numberOf? entries id := by
  induction entries using List.reverseRecOn with
  | nil => rfl
  | append_singleton entries entry ih =>
    obtain ⟨before, last⟩ := List.forall_mem_append.1 same
    rw [List.map_append, List.map_singleton, numberOf?_concat, numberOf?_concat, ih before,
      if_congr (last entry (List.mem_singleton_self entry)) rfl rfl]

namespace Draft.Enclosed

variable {s : Finset ℕ} {d d' : Draft} {id : ℕ}

/-- No group that captures is put in a group. -/
theorem notMem_of_mem_numbers (h : d.Enclosed s d') {name : String} {n : ℕ}
    (mem : ((name, id), n) ∈ d.numbers) : id ∉ s :=
  h.notMem_of_closed (.inr ⟨name, Array.mem_toList_iff.1 (List.fst_mem_of_mem_zipIdx mem)⟩)

/-- The groups have the same numbers in the end. -/
theorem numbers (h : d.Enclosed s d') :
    d'.numbers = d.numbers.map fun entry => ((entry.1.1, outer s entry.1.2), entry.2) := by
  rw [Draft.numbers, Draft.numbers, h.opened, h.named, Array.toList_map, List.zipIdx_map]
  rfl

/-- **When both drafts are finished**, the same nodes are in groups as before. -/
theorem finish (h : d.Enclosed s d') (root root' : ℕ) :
    (d.finish root).tree.Enclosed s (d'.finish root').tree := by
  have size (d : Draft) (root : ℕ) : (d.finish root).tree.size = d.tree.size :=
    (d.tree.parent?_setCaptures d.numbers).1
  constructor
  · rw [size, size, h.tree.size]
  · intro id shape look
    rw [shape?_finish] at look ⊢
    obtain ⟨old, here, rfl⟩ := Option.map_eq_some_iff.1 look
    have same : ∀ entry ∈ d.numbers, outer s entry.1.2 = inner s id ↔ entry.1.2 = id := by
      intro entry mem
      rw [outer_of_notMem (h.notMem_of_mem_numbers mem)]
      exact (inner_strictMono s).injective.eq_iff
    rw [h.tree.nodes id old here, h.numbers, numberOf?_map same, Shape.moved_renumbered]
    rfl
  · intro id mem
    have same : ∀ entry ∈ d.numbers, outer s entry.1.2 = outer s id ↔ entry.1.2 = id :=
      fun _ _ => (outer_strictMono s).injective.eq_iff
    have none : numberOf? d.numbers id = none := by
      by_contra some
      obtain ⟨n, number⟩ := Option.ne_none_iff_exists'.1 some
      obtain ⟨name, entry⟩ := exists_mem_of_numberOf? number
      exact h.notMem_of_mem_numbers entry mem
    rw [shape?_finish, h.tree.groups id mem, h.numbers, numberOf?_map same, none]
    rfl
  · intro id mem
    obtain ⟨shape, look, enclosable⟩ := h.tree.enclosable id mem
    rw [shape?_finish, look]
    exact ⟨_, rfl, enclosable.renumbered _⟩

end Draft.Enclosed

/-- **A pattern in which macros are written out can be read**, and its nodes are the nodes of the
pattern before, those of some macros in groups. -/
theorem Phrase.Finishes.exists_enclosed {φ φ' : Phrase} {pattern pattern' : String} {c : Compiled}
    {d : Draft} (h : φ.Finishes pattern c d) (encloses : Encloses true [φ] [φ'])
    (spells : φ'.Spells expansions pattern'.toList) :
    ∃ s d', φ'.Finishes pattern' (d'.finish (outer s c.root)) d' ∧ d.Enclosed s d' := by
  obtain ⟨s, d', run, row, -, -⟩ :=
    encloses.displaces .empty (buildAll_singleton_eq_ok.2 h.built)
  exact ⟨s, d', spells.finishes (buildAll_singleton_eq_ok.1 run), row.enclosed⟩

end PatternSampler
