/-
# What a reading marks

Marking is turned on in front of a piece and in front of its quantifier, and turned back to what it
was behind both.  Each call therefore marks, besides what its pieces mark, all that it adds or
nothing.

* `Draft.Marked` : what has been marked from one draft to another one.
* `Call.marked` : the nodes that a call marks, `Call.inner` : those that the pieces within it mark.
* `Call.Ends.marked` : what a call marks.
* `Call.Ends.exists_piece` : what the reader of a piece marks, with the markers around the piece.
-/
import PatternSampler.Proofs.Reading.Within

namespace PatternSampler

open Reading

/-! ## From one draft to another one -/

/-- A marker has been read exactly if a node is marked or marking is on. -/
def Draft.Flagged (d : Draft) : Prop :=
  d.hasMarker = true ↔ d.candidates.toList ≠ [] ∨ d.marking = true

/-- From one draft to another one the nodes of a set were marked and, if marking was on, all that
were added.  Marking is what it was. -/
structure Draft.Marked (d d' : Draft) (nodes : Set ℕ) : Prop where
  size : d.tree.size ≤ d'.tree.size
  marking : d'.marking = d.marking
  exists_new : ∃ new, d'.candidates.toList = d.candidates.toList ++ new ∧
    ∀ n, n ∈ new ↔ d.marking = true ∧ n ∈ Set.Ico d.tree.size d'.tree.size ∨ n ∈ nodes
  added : nodes ⊆ Set.Ico d.tree.size d'.tree.size
  flagged : d.Flagged → d'.Flagged

namespace Draft.Marked

variable {d d' d'' : Draft} {nodes nodes' : Set ℕ} {id : ℕ}

/-- Neither nodes nor marks have changed. -/
theorem same (size : d'.tree.size = d.tree.size) (marking : d'.marking = d.marking)
    (hasMarker : d'.hasMarker = d.hasMarker) (candidates : d'.candidates = d.candidates) :
    Marked d d' ∅ where
  size := size.ge
  marking := marking
  exists_new := ⟨[], by simp [candidates, size]⟩
  added := Set.empty_subset _
  flagged := by
    intro flagged
    rw [Flagged, hasMarker, candidates, marking]
    exact flagged

theorem refl (d : Draft) : Marked d d ∅ :=
  .same rfl rfl rfl rfl

theorem congr (h : Marked d d' nodes) (eq : nodes = nodes') : Marked d d' nodes' :=
  eq ▸ h

theorem trans (first : Marked d d' nodes) (second : Marked d' d'' nodes') :
    Marked d d'' (nodes ∪ nodes') := by
  obtain ⟨new, eq, mem⟩ := first.exists_new
  obtain ⟨new', eq', mem'⟩ := second.exists_new
  have size := first.size
  have size' := second.size
  refine ⟨size.trans size', second.marking.trans first.marking, ⟨new ++ new', ?_, fun n => ?_⟩, ?_,
    fun flagged => second.flagged (first.flagged flagged)⟩
  · rw [eq', eq, List.append_assoc]
  · rw [List.mem_append, mem, mem', first.marking, Set.mem_union, Set.mem_Ico, Set.mem_Ico,
      Set.mem_Ico]
    -- what is added is added first or afterwards
    have split : d.tree.size ≤ n ∧ n < d''.tree.size ↔
        (d.tree.size ≤ n ∧ n < d'.tree.size) ∨ (d'.tree.size ≤ n ∧ n < d''.tree.size) := by
      omega
    rw [split, and_or_left, or_or_or_comm]
  · apply Set.union_subset
    · exact first.added.trans (Set.Ico_subset_Ico_right size')
    · exact second.added.trans (Set.Ico_subset_Ico_left size)

/-- A node that is added is marked while marking is on. -/
theorem plant (d : Draft) (shape : Shape) : Marked d (d.plant shape) ∅ where
  size := by
    rw [Call.size_of_plant]
    omega
  marking := rfl
  exists_new := by
    have candidates : (d.plant shape).candidates =
      if d.marking then d.candidates.push d.tree.size else d.candidates := rfl
    rw [candidates, Call.size_of_plant]
    rcases d.marking with _ | _
    · exact ⟨[], by simp⟩
    · refine ⟨[d.tree.size], by simp, fun n => ?_⟩
      simp only [List.mem_singleton, Set.mem_Ico, Set.mem_empty_iff_false, true_and, or_false]
      omega
  added := Set.empty_subset _
  flagged := by
    intro flagged
    have candidates : (d.plant shape).candidates =
      if d.marking then d.candidates.push d.tree.size else d.candidates := rfl
    have flagged : d.hasMarker = true ↔ d.candidates.toList ≠ [] ∨ d.marking = true := flagged
    show d.hasMarker = true ↔ (d.plant shape).candidates.toList ≠ [] ∨ d.marking = true
    rw [flagged, candidates]
    rcases d.marking with _ | _
    · exact Iff.rfl
    · simp

theorem plain (adds : AddsPlain d d') : Marked d d' ∅ := by
  rcases adds with rfl | ⟨shape, -, -, rfl⟩
  · exact .refl _
  · exact .plant d shape

theorem opens {kind : GroupKind} {number : Option ℕ} (run : openGroup kind d = .ok number d') :
    Marked d d' ∅ := by
  cases kind <;> cases run <;> exact .same rfl rfl rfl rfl

theorem closes {kind : GroupKind} {number : Option ℕ} {body : ℕ}
    (run : closeGroup kind number body d = .ok id d') : Marked d d' ∅ := by
  obtain ⟨name, capture, numbered, named, -, rfl⟩ := Call.exists_of_closeGroup run
  have noted : Marked (d.plant (.group body name capture))
      { d.plant (.group body name capture) with numbered, named } ∅ := .same rfl rfl rfl rfl
  exact ((plant d _).trans noted).congr (Set.union_empty ∅)

/-! ### Markers -/

/-- A marker in front of something that adds nodes marks all of these. -/
theorem behind_marker {present : Bool} (inner : Marked (d.markIf present) d' nodes)
    (grows : d.tree.size < d'.tree.size) :
    Marked d { d' with marking := d.marking }
      (nodes ∪ {n | present = true ∧ n ∈ Set.Ico d.tree.size d'.tree.size}) := by
  cases present with
  | false =>
    have marking : d'.marking = d.marking := inner.marking
    have same : ({ d' with marking := d.marking } : Draft) = d' := by rw [← marking]
    rw [same]
    refine Marked.congr inner ?_
    simp
  | true =>
    obtain ⟨new, eq, mem⟩ := inner.exists_new
    have eq : d'.candidates.toList = d.candidates.toList ++ new := eq
    have mem (n : ℕ) : n ∈ new ↔
        true = true ∧ n ∈ Set.Ico d.tree.size d'.tree.size ∨ n ∈ nodes := mem n
    have added : nodes ⊆ Set.Ico d.tree.size d'.tree.size := inner.added
    have first : d.tree.size ∈ new := (mem _).2 (.inl ⟨rfl, le_rfl, grows⟩)
    have some : d'.candidates.toList ≠ [] := by
      rw [eq]
      exact List.append_ne_nil_of_right_ne_nil _ (List.ne_nil_of_mem first)
    refine ⟨grows.le, rfl, ⟨new, eq, fun n => ?_⟩, ?_, fun _ => ?_⟩
    · show _ ↔ _ ∧ n ∈ Set.Ico d.tree.size d'.tree.size ∨ _
      rw [mem, Set.mem_union, Set.mem_ofPred_eq]
      constructor
      · rintro (inside | part)
        · exact .inr (.inr inside)
        · exact .inr (.inl part)
      · rintro (⟨-, inside⟩ | part | inside)
        · exact .inl ⟨rfl, inside⟩
        · exact .inr part
        · exact .inl inside
    · apply Set.union_subset added
      exact fun n h => h.2
    · -- the marker is known from the mark on, which turns marking on
      have marked : d.mark.Flagged := iff_of_true rfl (.inr rfl)
      have flagged : d'.hasMarker = true ↔ _ := inner.flagged marked
      exact iff_of_true (flagged.2 (.inl some)) (.inl some)

/-- A quantifier adds one node; a marker in front of it marks that node. -/
theorem quantifier {quantifier : Option Quantifier} {node : ℕ} {present : Bool}
    (some : present = true → quantifier.isSome = true)
    (run : Phrase.repeated quantifier node (d.markIf present) = .ok id d') :
    Marked d { d' with marking := d.marking } {n | present = true ∧ n = d.tree.size} ∧
      d'.tree.size = d.tree.size + quantifier.isSome.toNat := by
  have tree : (d.markIf present).tree = d.tree := (alike_markIf present d).tree
  cases quantifier with
  | none =>
    obtain rfl : present = false := by simpa using some
    cases run
    refine ⟨(refl d).congr ?_, rfl⟩
    simp
  | some q =>
    cases run
    have size : ((d.markIf present).plant (.repetition node q.bounds q.sameText)).tree.size =
        d.tree.size + 1 := by
      rw [Call.size_of_plant, tree]
    refine ⟨((plant (d.markIf present) _).behind_marker ?_).congr ?_, size⟩
    · rw [size]
      omega
    · ext n
      rw [size, Set.empty_union, Set.mem_ofPred_eq, Set.mem_ofPred_eq, Set.mem_Ico]
      apply and_congr_right
      intro _
      omega

/-- A marker at the end of a branch marks all that was added before it. -/
theorem before_marker (inner : Marked d d' nodes) (grows : d.tree.size < d'.tree.size)
    (present : Bool) : Marked d (d'.markFromIf present d.tree.size)
      (nodes ∪ {n | present = true ∧ n ∈ Set.Ico d.tree.size d'.tree.size}) := by
  cases present with
  | false =>
    refine inner.congr ?_
    simp
  | true =>
    obtain ⟨new, eq, mem⟩ := inner.exists_new
    have candidates : (d'.markFromIf true d.tree.size).candidates.toList =
        d.candidates.toList ++ (new ++ List.range' d.tree.size (d'.tree.size - d.tree.size)) := by
      show (d'.candidates ++ Array.range' d.tree.size (d'.tree.size - d.tree.size)).toList = _
      rw [Array.toList_append, eq, List.append_assoc, Array.toList_range']
    refine ⟨grows.le, inner.marking, ⟨_, candidates, fun n => ?_⟩, ?_, fun _ => ?_⟩
    · show _ ↔ _ ∧ n ∈ Set.Ico d.tree.size d'.tree.size ∨ _
      have range : d.tree.size ≤ n ∧ n < d.tree.size + (d'.tree.size - d.tree.size) ↔
          d.tree.size ≤ n ∧ n < d'.tree.size := by
        omega
      rw [List.mem_append, mem, List.mem_range'_1, range, Set.mem_union, Set.mem_ofPred_eq,
        Set.mem_Ico, or_assoc, eq_self, true_and]
    · apply Set.union_subset inner.added
      exact fun n h => h.2
    · refine iff_of_true rfl (.inl ?_)
      rw [candidates]
      apply List.append_ne_nil_of_right_ne_nil
      apply List.append_ne_nil_of_right_ne_nil
      rw [Ne, List.range'_eq_nil_iff]
      omega

end Draft.Marked

/-! ## What calls mark -/

namespace Reading.Call

variable {C C' P : Call} {ids : List ℕ} {rest : List Char} {d : Draft} {nodes : Set ℕ}

/-- The nodes that a call marks, in the order in which it does so. -/
def marked (C : Call) : List ℕ :=
  match C.outcome? with
  | some (_, _, d) => d.candidates.toList.drop C.draft.candidates.size
  | none => []

/-- The nodes that the pieces within a call mark. -/
def inner (C : Call) : Set ℕ :=
  {n | ∃ P : Call, P.Within C ∧ P.level = .piece ∧ n ∈ P.marked}

/-- What a call marks is put behind what was marked before. -/
theorem Ends.candidates (ends : C.Ends ids rest d) :
    d.candidates.toList = C.draft.candidates.toList ++ C.marked := by
  obtain ⟨new, eq⟩ := ends.continues.candidates
  rw [marked, outcome?_eq_some_iff.2 ends]
  show _ = _ ++ d.candidates.toList.drop C.draft.candidates.size
  rw [← eq, ← Array.length_toList, List.drop_left]

theorem Ends.mem_marked (ends : C.Ends ids rest d) (h : C.draft.Marked d nodes) (n : ℕ) :
    n ∈ C.marked ↔
      C.draft.marking = true ∧ n ∈ Set.Ico C.draft.tree.size d.tree.size ∨ n ∈ nodes := by
  obtain ⟨new, eq, mem⟩ := h.exists_new
  rw [← mem, List.append_cancel_left (ends.candidates.symm.trans eq)]

/-- Unless it reads a piece itself, the pieces within a call are those within the calls it makes. -/
theorem inner_of_ne (level : C.level ≠ .piece) : C.inner = ⋃ C' ∈ C.calls, C'.inner := by
  ext n
  simp only [inner, Set.mem_ofPred_eq, Set.mem_iUnion, exists_prop]
  constructor
  · rintro ⟨P, within, piece, mem⟩
    rcases within_iff.1 within with rfl | ⟨C', made, within'⟩
    · exact absurd piece level
    · exact ⟨C', made, P, within', piece, mem⟩
  · rintro ⟨C', made, P, within', piece, mem⟩
    exact ⟨P, within'.trans (within_of_mem made), piece, mem⟩

theorem inner_piece (level : C.level = .piece) :
    C.inner = {n | n ∈ C.marked} ∪ ⋃ C' ∈ C.calls, C'.inner := by
  ext n
  simp only [inner, Set.mem_ofPred_eq, Set.mem_iUnion, exists_prop, Set.mem_union]
  constructor
  · rintro ⟨P, within, piece, mem⟩
    rcases within_iff.1 within with rfl | ⟨C', made, within'⟩
    · exact .inl mem
    · exact .inr ⟨C', made, P, within', piece, mem⟩
  · rintro (mem | ⟨C', made, P, within', piece, mem⟩)
    · exact ⟨C, .refl C, level, mem⟩
    · exact ⟨P, within'.trans (within_of_mem made), piece, mem⟩

/-- The call on the atom of a piece. -/
def onAtom (P : Call) : Call :=
  { P with
    level := .atom
    text := skipMarker (atMarker P.text) P.text
    draft := P.draft.markIf (atMarker P.text) }

/-- How the reader of a piece ends: behind the atom, for which the call on it ends with `node`,
`rest₁` and `d₁`, there may be a quantifier, which leaves `rest₂`. -/
structure Piece (P : Call) (node : ℕ) (rest₁ : List Char) (d₁ : Draft)
    (quantifier : Option Quantifier) (rest₂ : List Char) (ids : List ℕ) (rest : List Char)
    (d : Draft) : Prop where
  atom : P.onAtom.Ends [node] rest₁ d₁
  read : readQuantifier (skipMarker (atQuantifierMarker rest₁) rest₁) = .ok (quantifier, rest₂)
  rest : rest = skipMarker (atClosingMarker rest₂) rest₂
  single : quantifier = none → ids = [node] ∧ d.tree.size = d₁.tree.size
  repetition : ∀ q, quantifier = some q → ids = [d₁.tree.size] ∧
    d.tree.size = d₁.tree.size + 1 ∧
    d.tree.shape? d₁.tree.size = some (.repetition node q.bounds q.sameText)

/-- What is marked because of the markers around a piece, apart from what is added while marking is
on. -/
def aroundPiece (P : Call) (rest₁ : List Char) (d₁ : Draft) (rest₂ : List Char) (d : Draft) : Set ℕ :=
  {n | atMarker P.text = true ∧ n ∈ Set.Ico P.draft.tree.size d₁.tree.size} ∪
    {n | atQuantifierMarker rest₁ = true ∧ n = d₁.tree.size} ∪
    {n | atClosingMarker rest₂ = true ∧ n ∈ Set.Ico P.draft.tree.size d.tree.size}

/-- A marker in front of a quantifier is only taken where there is a quantifier. -/
theorem isSome_of_atQuantifierMarker {cs rest : List Char} {quantifier : Option Quantifier}
    (marker : atQuantifierMarker cs = true)
    (read : readQuantifier (skipMarker (atQuantifierMarker cs) cs) = .ok (quantifier, rest)) :
    quantifier.isSome = true := by
  obtain ⟨c, tail, rfl, mem⟩ := atQuantifierMarker_iff.1 marker
  rw [marker] at read
  have read : readQuantifier (c :: tail) = .ok (quantifier, rest) := read
  cases quantifier with
  | some q => rfl
  | none =>
    -- what begins a quantifier would be left, but it is read
    obtain ⟨⟨q, left⟩, greedy, h⟩ := bind_eq_ok.1 read
    dsimp only at h
    split at h
    · cases h
    · cases h
      obtain ⟨-, -, other⟩ | ⟨_, _, -, -, -, ⟨⟩, -⟩ := readGreedy_cases greedy
      exact absurd mem (other c rfl)

/-- What a piece marks, if the call on its atom marks what it should. -/
theorem Ends.exists_piece (level : P.level = .piece) (ends : P.Ends ids rest d)
    (each : ∀ {ids' : List ℕ} {rest' : List Char} {d' : Draft}, P.onAtom.Ends ids' rest' d' →
      P.onAtom.draft.Marked d' P.onAtom.inner) :
    ∃ node rest₁ d₁ quantifier rest₂, P.Piece node rest₁ d₁ quantifier rest₂ ids rest d ∧
      P.draft.Marked d (P.onAtom.inner ∪ P.aroundPiece rest₁ d₁ rest₂ d) := by
  obtain ⟨expanding, level', cs, d₀⟩ := P
  obtain rfl : level' = .piece := level
  generalize eq : calls ⟨expanding, .piece, cs, d₀⟩ = made at *
  have course := eq ▸ ends.course
  cases course with
  | @piece _ _ rest₁ rest₂ node id quantifier _ d₁ d₂ inner read planted =>
    have grows : d₀.tree.size < d₁.tree.size := by
      have size : (d₀.markIf (atMarker cs)).tree.size + 1 ≤ d₁.tree.size := inner.size_le
      rw [(Draft.alike_markIf (atMarker cs) d₀).tree] at size
      exact size
    have front := Draft.Marked.behind_marker (each inner) grows
    obtain ⟨middle, size⟩ :=
      Draft.Marked.quantifier (fun marker => isSome_of_atQuantifierMarker marker read) planted
    have size : d₂.tree.size = d₁.tree.size + quantifier.isSome.toNat := size
    have grows' : d₀.tree.size < d₂.tree.size := by omega
    have whole := (front.trans middle).before_marker grows' (atClosingMarker rest₂)
    have tree := (Draft.alike_markFromIf (atClosingMarker rest₂) d₀.tree.size
      { d₂ with marking := d₀.marking }).tree
    refine ⟨node, rest₁, d₁, quantifier, rest₂, ⟨inner, read, rfl, ?_, ?_⟩, whole.congr ?_⟩
    · rintro rfl
      cases planted
      rw [tree]
      exact ⟨rfl, size⟩
    · rintro q rfl
      cases planted
      rw [tree]
      have before := (Draft.alike_markIf (atQuantifierMarker rest₁)
        { d₁ with marking := d₀.marking }).tree
      refine ⟨by rw [before], size, ?_⟩
      have look := Draft.shape?_plant_size (Draft.markIf (atQuantifierMarker rest₁)
        { d₁ with marking := d₀.marking }) (.repetition node q.bounds q.sameText)
      rw [before] at look
      exact look
    · rw [aroundPiece, tree, Set.union_assoc, Set.union_assoc, Set.union_assoc]

/-- A piece counts itself among the pieces within it. -/
theorem Ends.marked_of_piece (level : P.level = .piece) (ends : P.Ends ids rest d)
    (h : P.draft.Marked d (P.onAtom.inner ∪ nodes)) : P.draft.Marked d P.inner := by
  have made : P.calls = [P.onAtom] := by
    unfold calls
    rw [level]
    rfl
  have pieces : P.inner = {n | n ∈ P.marked} ∪ P.onAtom.inner := by
    rw [inner_piece level, made]
    simp
  obtain ⟨new, eq, mem⟩ := h.exists_new
  refine ⟨h.size, h.marking, ⟨new, eq, fun n => ?_⟩, fun n part => ?_, h.flagged⟩
  · rw [mem, pieces, Set.mem_union, Set.mem_union, Set.mem_ofPred_eq, ends.mem_marked h,
      Set.mem_union]
    constructor
    · rintro (inside | part)
      · exact .inl inside
      · exact .inr (.inl (.inr part))
    · rintro (inside | (both | part))
      · exact .inl inside
      · exact both
      · exact .inr (.inl part)
  · rw [pieces, Set.mem_union, Set.mem_ofPred_eq, ends.mem_marked h] at part
    rcases part with (⟨-, bounds⟩ | mem) | mem
    · exact bounds
    · exact h.added mem
    · exact h.added (.inl mem)

/-- **What a call marks**: what the pieces within it mark and, if marking is on, all that it adds.
-/
theorem Ends.marked (ends : C.Ends ids rest d) : C.draft.Marked d C.inner := by
  induction ends using Ends.induct with
  | @step C made ids rest d ends same course ih =>
    have others (level : C.level ≠ .piece) : C.inner = ⋃ C' ∈ made, C'.inner :=
      same ▸ inner_of_ne level
    cases course with
    | atom _ _ _ built =>
      obtain ⟨shape, -, rfl, -⟩ := exists_plant_of_build_atom built
      refine (Draft.Marked.plant _ shape).congr ?_
      rw [others nofun]
      simp
    | expansion _ _ _ inner planted =>
      have inside := ih _ List.mem_cons_self inner
      refine (inside.trans (.plain (addsPlain_plantAlternatives planted))).congr ?_
      rw [others nofun]
      simp
    | group _ opens inner planted closes =>
      have inside := ih _ List.mem_cons_self inner
      have front := (Draft.Marked.opens opens).trans inside
      have outer := front.trans (.plain (addsPlain_plantAlternatives planted))
      refine (outer.trans (.closes closes)).congr ?_
      rw [others nofun]
      simp
    | piece =>
      obtain ⟨_, _, _, _, _, -, whole⟩ := ends.exists_piece rfl (ih _ List.mem_cons_self)
      exact ends.marked_of_piece rfl whole
    | stop =>
      refine (Draft.Marked.refl _).congr ?_
      rw [others nofun]
      simp
    | next _ first further =>
      have head := ih _ List.mem_cons_self first
      have tail := ih _ (List.mem_cons_of_mem _ List.mem_cons_self) further
      refine (head.trans tail).congr ?_
      rw [others nofun]
      simp
    | last first _ planted =>
      have head := ih _ List.mem_cons_self first
      refine (head.trans (.plain (addsPlain_plantBranch planted))).congr ?_
      rw [others nofun]
      simp
    | more first planted further =>
      have head := ih _ List.mem_cons_self first
      have tail := ih _ (List.mem_cons_of_mem _ List.mem_cons_self) further
      refine ((head.trans (.plain (addsPlain_plantBranch planted))).trans tail).congr ?_
      rw [others nofun]
      simp

end Reading.Call

namespace Compiled

/-- Only nodes of the pattern are marked. -/
theorem lt_size_of_mem_candidates {pattern : String} {c : Compiled}
    (read : ofPattern? pattern = .ok c) {id : ℕ} (mem : id ∈ c.candidates) : id < c.tree.size := by
  obtain ⟨first, more, d₁, d, finishes⟩ := Call.exists_finishes read
  have whole := finishes.ends.marked.trans
    (.plain (addsPlain_plantAlternatives finishes.planted))
  obtain ⟨new, eq, all⟩ := whole.exists_new
  have size : c.tree.size = d.tree.size := by
    rw [← finishes.finished]
    exact (d.tree.parent?_setCaptures d.numbers).1
  rw [← finishes.finished] at mem
  have mem : id ∈ d.candidates.toList := mem
  rw [eq] at mem
  rcases (all id).1 mem with ⟨-, bounds⟩ | inner
  · exact size ▸ bounds.2
  · exact size ▸ (whole.added inner).2

/-- **The marked nodes are exactly those that markers stand at.**  A pattern has a marker if and
only if some node is marked.  The reader of a piece leaves marking as it was, and it marks the nodes
of the atom if marking was on or a marker stands in front, the repetition if marking was on or a
marker stands in front of the quantifier, all its nodes if a marker closes the branch, and what the
pieces within the atom mark. -/
theorem candidates_exactly_marked :
    (∀ {pattern : String} {c : Compiled}, ofPattern? pattern = .ok c →
      (c.hasMarker = true ↔ c.candidates ≠ [])) ∧
    ∀ {P : Call} {ids : List ℕ} {rest : List Char} {d : Draft}, P.level = .piece →
      P.Ends ids rest d →
      ∃ node rest₁ d₁ quantifier rest₂, P.Piece node rest₁ d₁ quantifier rest₂ ids rest d ∧
        d.marking = P.draft.marking ∧
        d.candidates.toList = P.draft.candidates.toList ++ P.marked ∧
        {n | n ∈ P.marked} =
          {n | (P.draft.marking = true ∨ atMarker P.text = true) ∧
            n ∈ Set.Ico P.draft.tree.size d₁.tree.size} ∪
          {n | quantifier.isSome = true ∧
            (P.draft.marking = true ∨ atQuantifierMarker rest₁ = true) ∧ n = d₁.tree.size} ∪
          {n | atClosingMarker rest₂ = true ∧ n ∈ Set.Ico P.draft.tree.size d.tree.size} ∪
          P.onAtom.inner := by
  constructor
  · intro pattern c read
    obtain ⟨first, more, d₁, d, finishes⟩ := Call.exists_finishes read
    have whole := finishes.ends.marked.trans
      (.plain (addsPlain_plantAlternatives finishes.planted))
    have nothing : ({} : Draft).Flagged := iff_of_false nofun (by simp)
    have flagged : d.hasMarker = true ↔ d.candidates.toList ≠ [] ∨ d.marking = true :=
      whole.flagged nothing
    have off : d.marking = false := whole.marking
    rw [← finishes.finished]
    show d.hasMarker = true ↔ d.candidates.toList ≠ []
    rw [flagged, off]
    simp
  · intro P ids rest d level ends
    obtain ⟨node, rest₁, d₁, quantifier, rest₂, piece, marked⟩ :=
      ends.exists_piece level Call.Ends.marked
    refine ⟨node, rest₁, d₁, quantifier, rest₂, piece, marked.marking, ends.candidates, ?_⟩
    ext n
    have size : d.tree.size = d₁.tree.size + quantifier.isSome.toNat := by
      cases quantifier with
      | none => exact (piece.single rfl).2
      | some q => exact (piece.repetition q rfl).2.1
    have grows : P.draft.tree.size ≤ d₁.tree.size := by
      have le : (P.draft.markIf (atMarker P.text)).tree.size + 1 ≤ d₁.tree.size := piece.atom.size_le
      rw [(Draft.alike_markIf (atMarker P.text) P.draft).tree] at le
      omega
    have quantified : atQuantifierMarker rest₁ = true → quantifier.isSome = true :=
      fun marker => Call.isSome_of_atQuantifierMarker marker piece.read
    rw [Set.mem_ofPred_eq, ends.mem_marked marked, Call.aroundPiece]
    simp only [Set.mem_union, Set.mem_ofPred_eq, Set.mem_Ico]
    -- what is added is the nodes of the atom and, behind them, the repetition
    have parts : P.draft.tree.size ≤ n ∧ n < d.tree.size ↔
        (P.draft.tree.size ≤ n ∧ n < d₁.tree.size) ∨
          quantifier.isSome = true ∧ n = d₁.tree.size := by
      rcases isSome : quantifier.isSome with _ | _ <;> rw [isSome] at size
      · simp only [Bool.toNat_false, Bool.false_eq_true, false_and, or_false] at size ⊢
        omega
      · simp only [Bool.toNat_true, true_and] at size ⊢
        omega
    rw [parts]
    constructor
    · rintro (⟨on, inside | ⟨isSome, eq⟩⟩ | nested | (⟨marker, inside⟩ | ⟨marker, eq⟩) | closing)
      · exact .inl (.inl (.inl ⟨.inl on, inside⟩))
      · exact .inl (.inl (.inr ⟨isSome, .inl on, eq⟩))
      · exact .inr nested
      · exact .inl (.inl (.inl ⟨.inr marker, inside⟩))
      · exact .inl (.inl (.inr ⟨quantified marker, .inr marker, eq⟩))
      · exact .inl (.inr closing)
    · rintro (((⟨on | marker, inside⟩ | ⟨isSome, on | marker, eq⟩) | closing) | nested)
      · exact .inl ⟨on, .inl inside⟩
      · exact .inr (.inr (.inl (.inl ⟨marker, inside⟩)))
      · exact .inl ⟨on, .inr ⟨isSome, eq⟩⟩
      · exact .inr (.inr (.inl (.inr ⟨marker, eq⟩)))
      · exact .inr (.inr (.inr closing))
      · exact .inr (.inl nested)

/-- A group without markers of its own, in which a quantifier is marked and a marker stands behind a
macro at the end of the branch. -/
theorem candidates_exactly_marked_nested :
    (∃ c, ofPattern? "(a\\i?[:digit:]\\i)" = .ok c ∧ c.hasMarker = true ∧ c.candidates = [1, 2]) ∧
    ∃ P : Call, P.text = "(a\\i?[:digit:]\\i)".toList ∧ P.level = .piece ∧ P.marked = [1, 2] ∧
      P.onAtom.inner = {1, 2} := by
  have run : (ofPattern? "(a\\i?[:digit:]\\i)").toOption.map candidates = some [1, 2] := by
    decide +kernel
  obtain ⟨c, read, eq⟩ := Call.exists_of_ofPattern? run
  refine ⟨⟨c, read, candidates_exactly_marked.1 read |>.2 (by simp [eq]), eq⟩, ?_⟩
  obtain ⟨P, eqP⟩ : ∃ P : Call, P = ⟨false, .piece, "(a\\i?[:digit:]\\i)".toList, {}⟩ := ⟨_, rfl⟩
  have outcome : P.outcome?.map (fun _ => P.marked) = some [1, 2] := by
    rw [eqP]
    decide +kernel
  have atom : P.onAtom.outcome?.map (fun o => o.2.1) = some [] := by
    rw [eqP]
    decide +kernel
  obtain ⟨ids, rest, d, ends, marked⟩ := Call.exists_ends outcome
  obtain ⟨_, _, _, ends', nothing_left⟩ := Call.exists_ends atom
  have level : P.level = .piece := by rw [eqP]
  obtain ⟨node, rest₁, d₁, quantifier, rest₂, piece, -, -, all⟩ :=
    candidates_exactly_marked.2 level ends
  -- nothing is left behind the group, so there is neither a quantifier nor a marker
  obtain rfl : rest₁ = [] := (piece.atom.unique ends').2.1.trans nothing_left
  have read : Except.ok (none, []) = Except.ok (quantifier, rest₂) := piece.read
  obtain ⟨rfl, rfl⟩ := Prod.mk.inj (Except.ok.inj read)
  refine ⟨P, by rw [eqP], level, marked, ?_⟩
  have off : P.draft.marking = false := by rw [eqP]
  have leading : atMarker P.text = false := by
    rw [eqP]
    decide +kernel
  have closing : atClosingMarker [] = false := rfl
  rw [marked, off, leading, closing] at all
  ext n
  simpa using (Set.ext_iff.1 all n).symm

end Compiled

end PatternSampler
