/-
# Finished patterns

When a draft is finished, the named groups get the numbers behind those of the numbered
groups.  What refers to a group finds one that captures, and no two groups have the same number.

* `Tree.shape?_setCaptures` : a node after numbers have been put in.
* `Draft.Sound.wellFormed_finish` : finishing a sound draft.
* `Compiled.ofPattern?_wellFormed` and `Compiled.ofPattern?_block` : what holds of a pattern that
  has been read.
-/
import PatternSampler.Proofs.Reading.Pattern

namespace PatternSampler

/-! ## Putting numbers in -/

/-- A tree with numbers put in for named groups, one after the other. -/
def Tree.setCaptures (t : Tree) (entries : List ((String × ℕ) × ℕ)) : Tree :=
  entries.foldl (fun tree (group, number) => tree.setCapture group.2 number) t

/-- The last number that is put in for a node, if there is one. -/
def numberOf? (entries : List ((String × ℕ) × ℕ)) (id : ℕ) : Option ℕ :=
  (entries.reverse.find? (·.1.2 == id)).map Prod.snd

/-- A shape with its capture number replaced where there is a number to put in. -/
def Shape.renumbered (shape : Shape) : Option ℕ → Shape
  | none => shape
  | some n => shape.withCapture n

theorem Shape.references_renumbered (shape : Shape) (number : Option ℕ) :
    (shape.renumbered number).references = shape.references := by
  cases number with
  | none => rfl
  | some n => cases shape <;> rfl

theorem Shape.regular_renumbered {shape : Shape} (h : shape.Regular) (number : Option ℕ) :
    (shape.renumbered number).Regular := by
  cases number with
  | none => exact h
  | some n => cases shape <;> exact h

theorem Shape.children_renumbered (shape : Shape) (number : Option ℕ) :
    (shape.renumbered number).children = shape.children := by
  cases number with
  | none => rfl
  | some n => cases shape <;> rfl

theorem numberOf?_concat (entries : List ((String × ℕ) × ℕ)) (entry : (String × ℕ) × ℕ) (id : ℕ) :
    numberOf? (entries ++ [entry]) id =
      if entry.1.2 = id then some entry.2 else numberOf? entries id := by
  rw [numberOf?, List.reverse_concat, List.find?_cons]
  by_cases eq : entry.1.2 = id
  · rw [if_pos eq, beq_iff_eq.2 eq]
    rfl
  · rw [if_neg eq, beq_eq_false_iff_ne.2 eq]
    rfl

theorem Tree.shape?_setCaptures (t : Tree) (entries : List ((String × ℕ) × ℕ)) (id : ℕ) :
    (t.setCaptures entries).shape? id =
      (t.shape? id).map fun shape => shape.renumbered (numberOf? entries id) := by
  induction entries using List.reverseRecOn with
  | nil =>
    show t.shape? id = (t.shape? id).map fun shape => shape
    rw [Option.map_id']
  | append_singleton entries entry ih =>
    have step : t.setCaptures (entries ++ [entry]) =
        (t.setCaptures entries).setCapture entry.1.2 entry.2 := by
      rw [setCaptures, setCaptures, List.foldl_append]
      rfl
    rw [step, shape?_setCapture, ih, numberOf?_concat]
    split
    · rw [Option.map_map]
      congr 1
      funext shape
      cases numberOf? entries id with
      | none => rfl
      | some n => cases shape <;> rfl
    · rfl

/-- Numbers do not count for owners, nor for how many nodes there are. -/
theorem Tree.parent?_setCaptures (t : Tree) (entries : List ((String × ℕ) × ℕ)) :
    (t.setCaptures entries).size = t.size ∧
      ∀ id, (t.setCaptures entries).parent? id = t.parent? id := by
  induction entries using List.reverseRecOn with
  | nil => exact ⟨rfl, fun _ => rfl⟩
  | append_singleton entries entry ih =>
    have step : t.setCaptures (entries ++ [entry]) =
        (t.setCaptures entries).setCapture entry.1.2 entry.2 := by
      rw [setCaptures, setCaptures, List.foldl_append]
      rfl
    refine ⟨?_, fun id => ?_⟩
    · rw [step, size, setCapture, Array.size_modify]
      exact ih.1
    · rw [step, parent?_setCapture, ih.2]

theorem exists_mem_of_numberOf? {entries : List ((String × ℕ) × ℕ)} {id n : ℕ}
    (h : numberOf? entries id = some n) : ∃ name, ((name, id), n) ∈ entries := by
  obtain ⟨⟨⟨name, id'⟩, n'⟩, found, rfl⟩ := Option.map_eq_some_iff.1 h
  have is : id' = id := by simpa using List.find?_some found
  subst is
  exact ⟨name, List.mem_reverse.1 (List.mem_of_find?_eq_some found)⟩

theorem exists_numberOf? {entries : List ((String × ℕ) × ℕ)} {entry : (String × ℕ) × ℕ}
    (mem : entry ∈ entries) : ∃ n, numberOf? entries entry.1.2 = some n := by
  have isSome : (entries.reverse.find? (·.1.2 == entry.1.2)).isSome := by
    rw [List.find?_isSome]
    exact ⟨entry, List.mem_reverse.2 mem, beq_self_eq_true _⟩
  obtain ⟨found, eq⟩ := Option.isSome_iff_exists.1 isSome
  exact ⟨found.2, by rw [numberOf?, eq]; rfl⟩

/-! ## Finishing a draft -/

namespace Draft

variable {d : Draft}

/-- The named groups with the numbers they get. -/
def numbers (d : Draft) : List ((String × ℕ) × ℕ) :=
  d.named.toList.zipIdx (d.opened + 1)

theorem shape?_finish (d : Draft) (root id : ℕ) :
    (d.finish root).tree.shape? id =
      (d.tree.shape? id).map fun shape => shape.renumbered (numberOf? d.numbers id) :=
  Tree.shape?_setCaptures d.tree d.numbers id

/-- The numbers of named groups are behind those of numbered ones. -/
theorem opened_lt_of_mem_numbers {group : String × ℕ} {n : ℕ} (mem : (group, n) ∈ d.numbers) :
    d.opened < n :=
  List.le_snd_of_mem_zipIdx mem

/-- No number is given twice. -/
theorem eq_of_mem_numbers {group group' : String × ℕ} {n : ℕ} (mem : (group, n) ∈ d.numbers)
    (mem' : (group', n) ∈ d.numbers) : group = group' := by
  have look := (List.mem_zipIdx_iff_le_and_getElem?_sub.1 mem).2
  have look' := (List.mem_zipIdx_iff_le_and_getElem?_sub.1 mem').2
  exact Option.some.inj (look.symm.trans look')

/-- Where a finished group has its number from. -/
theorem capture?_finish {root id n : ℕ} (h : (d.finish root).tree.capture? id = some n) :
    (numberOf? d.numbers id = none ∧ d.tree.capture? id = some n) ∨
      ∃ name, ((name, id), n) ∈ d.numbers := by
  obtain ⟨shape', look', capture⟩ := Option.bind_eq_some_iff.1 h
  rw [shape?_finish] at look'
  obtain ⟨shape, look, rfl⟩ := Option.map_eq_some_iff.1 look'
  rcases number : numberOf? d.numbers id with _ | m
  · rw [number] at capture
    refine Or.inl ⟨rfl, ?_⟩
    rw [Tree.capture?, look]
    exact capture
  · rw [number] at capture
    cases shape <;> cases capture
    exact Or.inr (exists_mem_of_numberOf? number)

/-- Nodes other than groups stay what they were. -/
theorem shape?_of_finish {root id : ℕ} {shape : Shape}
    (h : (d.finish root).tree.shape? id = some shape) (nogroup : ∀ b n c, shape ≠ .group b n c) :
    d.tree.shape? id = some shape := by
  rw [shape?_finish] at h
  obtain ⟨old, look, eq⟩ := Option.map_eq_some_iff.1 h
  rw [look]
  generalize numberOf? d.numbers id = number at eq
  subst eq
  cases number with
  | none => rfl
  | some n =>
    cases old with
    | group b name c => exact absurd rfl (nogroup b name (some n))
    | text | set | concat | alternation | repetition | backref => rfl

/-- **Finishing a sound draft gives a well-formed tree.** -/
theorem Sound.wellFormed_finish (h : d.Sound) (root : ℕ) : (d.finish root).tree.WellFormed where
  ordered := by
    intro id shape look r hr
    rw [shape?_finish] at look
    obtain ⟨old, found, rfl⟩ := Option.map_eq_some_iff.1 look
    rw [Shape.references_renumbered] at hr
    exact h.ordered id old found r hr
  branches := by
    intro id branches look
    exact h.branches id branches (shape?_of_finish look (by simp))
  targets := by
    intro id target look
    rcases h.targets id target (shape?_of_finish look (by simp)) with ⟨n, mem⟩ | ⟨name, mem⟩
    · obtain ⟨body, group⟩ := h.numbered n target mem
      rw [shape?_finish, group]
      cases numberOf? d.numbers target with
      | none => exact ⟨body, none, n, rfl⟩
      | some m => exact ⟨body, none, m, rfl⟩
    · obtain ⟨body, group⟩ := h.named name target mem
      obtain ⟨i, lt, at_i⟩ := Array.getElem_of_mem mem
      have entry : ((name, target), d.opened + 1 + i) ∈ d.numbers := by
        refine List.mk_add_mem_zipIdx_iff_getElem?.2 ?_
        rw [Array.getElem?_toList, Array.getElem?_eq_getElem lt, at_i]
      obtain ⟨m, number⟩ := exists_numberOf? entry
      rw [shape?_finish, group, number]
      exact ⟨body, some name, m, rfl⟩
  unique := by
    intro id id' n own own'
    rcases capture?_finish own with ⟨-, old⟩ | ⟨name, mem⟩ <;>
      rcases capture?_finish own' with ⟨-, old'⟩ | ⟨name', mem'⟩
    · exact h.unique id id' n old old'
    · exact absurd (h.opened id n old) (not_le.2 (opened_lt_of_mem_numbers mem'))
    · exact absurd (h.opened id' n old') (not_le.2 (opened_lt_of_mem_numbers mem))
    · exact congrArg Prod.snd (eq_of_mem_numbers mem mem')

theorem children?_finish (d : Draft) (root id : ℕ) :
    (d.finish root).tree.children? id = d.tree.children? id := by
  rw [Tree.children?, Tree.children?, shape?_finish, Option.map_map]
  congr 1
  funext shape
  exact Shape.children_renumbered shape _

/-- In a finished draft nodes still know their owners. -/
theorem Sound.linked_finish (h : d.Sound) (root : ℕ) : (d.finish root).tree.Linked := by
  intro owner child
  have parent : (d.finish root).tree.parent? child = d.tree.parent? child :=
    (d.tree.parent?_setCaptures d.numbers).2 child
  rw [parent, h.linked owner child, Tree.owns_iff, Tree.owns_iff, children?_finish]

theorem Sound.regular_finish (h : d.Sound) (root id : ℕ) {shape : Shape}
    (look : (d.finish root).tree.shape? id = some shape) : shape.Regular := by
  rw [shape?_finish] at look
  obtain ⟨old, found, rfl⟩ := Option.map_eq_some_iff.1 look
  exact Shape.regular_renumbered (h.regular id old found) _

end Draft

theorem wholePattern_of_ofPattern? {pattern : String} {c : Compiled}
    (h : Compiled.ofPattern? pattern = .ok c) :
    ∃ root d, Reading.wholePattern Reading.expandMacro pattern.toList {} = .ok root d ∧
      d.finish root = c := by
  unfold Compiled.ofPattern? Draft.read at h
  dsimp only at h
  rcases run : Reading.wholePattern Reading.expandMacro pattern.toList {} with ⟨root, d⟩ | ⟨e, d⟩
  · simp only [run] at h
    exact ⟨root, d, rfl, Except.ok.inj h⟩
  · simp only [run] at h
    cases h

/-- A pattern that has been read is a finished draft to which one part was added. -/
theorem Compiled.exists_adds_of_ofPattern? {pattern : String} {c : Compiled}
    (h : Compiled.ofPattern? pattern = .ok c) :
    ∃ d, Adds {} c.root d ∧ d.finish c.root = c := by
  obtain ⟨root, d, run, rfl⟩ := wholePattern_of_ofPattern? h
  exact ⟨d, Reading.adds_wholePattern Reading.addMacros_expandMacro Draft.sound_empty run, rfl⟩

/-- **A pattern that has been read has a well-formed tree.** -/
theorem Compiled.ofPattern?_wellFormed {pattern : String} {c : Compiled}
    (h : Compiled.ofPattern? pattern = .ok c) : c.tree.WellFormed := by
  obtain ⟨d, adds, eq⟩ := exists_adds_of_ofPattern? h
  exact eq ▸ adds.sound.wellFormed_finish c.root

/-- The nodes of a pattern that has been read make up a single part. -/
theorem Compiled.ofPattern?_block {pattern : String} {c : Compiled}
    (h : Compiled.ofPattern? pattern = .ok c) : c.tree.Block 0 c.root := by
  obtain ⟨d, adds, eq⟩ := exists_adds_of_ofPattern? h
  refine adds.block.congr fun i _ => ?_
  rw [← eq]
  exact d.children?_finish c.root i

/-- The node of the whole pattern is the last one. -/
theorem Compiled.ofPattern?_size {pattern : String} {c : Compiled}
    (h : Compiled.ofPattern? pattern = .ok c) : c.tree.size = c.root + 1 := by
  obtain ⟨d, adds, eq⟩ := exists_adds_of_ofPattern? h
  rw [← adds.last, ← (d.tree.parent?_setCaptures d.numbers).1]
  exact congrArg (fun c => c.tree.size) eq.symm

/-- **The nodes of a pattern that has been read know their owners.** -/
theorem Compiled.ofPattern?_linked {pattern : String} {c : Compiled}
    (h : Compiled.ofPattern? pattern = .ok c) : c.tree.Linked := by
  obtain ⟨d, adds, eq⟩ := exists_adds_of_ofPattern? h
  exact eq ▸ adds.sound.linked_finish c.root

/-- The nodes of a pattern that has been read have regular shapes. -/
theorem Compiled.ofPattern?_regular {pattern : String} {c : Compiled}
    (h : Compiled.ofPattern? pattern = .ok c) {id : ℕ} {shape : Shape}
    (look : c.tree.shape? id = some shape) : shape.Regular := by
  obtain ⟨d, adds, eq⟩ := exists_adds_of_ofPattern? h
  exact adds.sound.regular_finish c.root id (eq ▸ look)

end PatternSampler
