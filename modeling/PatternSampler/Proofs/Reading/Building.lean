/-
# What stays true while nodes are made

Making nodes of a phrase adds nodes, opens and closes groups, and turns marking on and off.  What
all of these preserve holds of the draft in the end.

* `Phrase.Unmarked` : a phrase without markers.
* `Phrase.preserved_of_build` : what is preserved when nodes are made of a phrase.
* `Phrase.Unmarked.clean` : a phrase without markers leaves no marks.
* `Phrase.backs_of_build` : there are no more numbers than nodes.
* `Draft.Sound.exists_capture?_finish_iff` : the numbers under which groups capture.
-/
import PatternSampler.Proofs.Reading.Meaning

namespace PatternSampler

open Reading

namespace Phrase

/-- A phrase without markers. -/
inductive Unmarked : Phrase → Prop
  | atom {a : Atom} : Unmarked (atom a)
  | group {kind : GroupKind} {body : Phrase} : Unmarked body → Unmarked (group kind body)
  | piece {body : Phrase} {quantifier : Option Quantifier} :
      Unmarked body → Unmarked (piece ⟨false, false, false⟩ body quantifier)
  | branch {pieces : List Phrase} : (∀ φ ∈ pieces, Unmarked φ) → Unmarked (branch pieces)
  | choice {first : Phrase} {more : List Phrase} :
      Unmarked first → (∀ φ ∈ more, Unmarked φ) → Unmarked (choice first more)

end Phrase

/-- What is preserved when a node is planted that does not capture, and when marking is set back. -/
structure Draft.Planting (P : Draft → Prop) : Prop where
  plant : ∀ {d : Draft} (shape : Shape), shape.capture? = none → P d → P (d.plant shape)
  restores : ∀ {d d' : Draft}, P d → P d' → P { d' with marking := d.marking }

/-- What each single step of making nodes preserves. -/
structure Draft.Steady (P : Draft → Prop) : Prop extends Draft.Planting P where
  opens : ∀ {kind : GroupKind} {number : Option ℕ} {d d' : Draft},
    openGroup kind d = .ok number d' → P d → P d'
  closes : ∀ {kind : GroupKind} {number : Option ℕ} {body id : ℕ} {d d' : Draft},
    closeGroup kind number body d = .ok id d' → P d → P d'

variable {P : Draft → Prop} {d d' : Draft} {id : ℕ}

namespace Draft.Planting

/-- An atom adds one node. -/
theorem atom (planting : Planting P) {a : Atom} (run : (Phrase.atom a).build d = .ok id d')
    (h : P d) : P d' := by
  rw [Phrase.build] at run
  cases a with
  | text | set =>
    cases run
    exact planting.plant _ rfl h
  | backrefNumber number =>
    obtain ⟨target, -, ⟨⟩⟩ := plantAtom_backrefNumber_eq_ok_iff.1 run
    exact planting.plant (.backref target) rfl h
  | backrefName name =>
    obtain ⟨target, -, ⟨⟩⟩ := plantAtom_backrefName_eq_ok_iff.1 run
    exact planting.plant (.backref target) rfl h
  | macroName => cases run

/-- A quantifier adds one node at most. -/
theorem repeated (planting : Planting P) {quantifier : Option Quantifier} {node : ℕ}
    (run : Phrase.repeated quantifier node d = .ok id d') (h : P d) : P d' := by
  cases quantifier with
  | none =>
    cases run
    exact h
  | some q =>
    cases run
    exact planting.plant _ rfl h

/-- A branch adds one node at most. -/
theorem branch (planting : Planting P) {ids : List ℕ} (run : plantBranch ids d = .ok id d')
    (h : P d) : P d' := by
  unfold plantBranch at run
  split at run <;> cases run
  · exact planting.plant _ rfl h
  · exact h
  · exact planting.plant _ rfl h

/-- A choice adds one node at most. -/
theorem choice (planting : Planting P) {first : ℕ} {ids : List ℕ}
    (run : plantAlternatives first ids d = .ok id d') (h : P d) : P d' := by
  unfold plantAlternatives at run
  split at run <;> cases run
  · exact h
  · exact planting.plant _ rfl h

end Draft.Planting

/-- What each phrase of a row preserves, the row preserves. -/
theorem Phrase.preserved_of_buildAll {φs : List Phrase}
    (each : ∀ φ ∈ φs, ∀ {d d' : Draft} {id : ℕ}, φ.build d = .ok id d' → P d → P d')
    {d d' : Draft} {ids : List ℕ} (run : Phrase.buildAll φs d = .ok ids d') (h : P d) : P d' := by
  induction φs generalizing d ids with
  | nil =>
    obtain ⟨-, rfl⟩ := Phrase.buildAll_nil_eq_ok.1 run
    exact h
  | cons φ φs ih =>
    obtain ⟨id, d₁, others, head, tail, -⟩ := Phrase.buildAll_cons_eq_ok.1 run
    obtain ⟨first, more⟩ := List.forall_mem_cons.1 each
    exact ih more tail (first head h)

/-- **What each step preserves holds in the end** if marks do not count for it or the phrase has no
markers. -/
theorem Phrase.preserved_of_build (steady : Draft.Steady P) {φ : Phrase}
    (marks : φ.Unmarked ∨ ∀ {d d' : Draft}, d.Alike d' → P d → P d')
    (run : φ.build d = .ok id d') (h : P d) : P d' := by
  induction φ using Phrase.induct generalizing d d' id with
  | atom a => exact steady.atom run h
  | group kind body ih =>
    obtain ⟨number, node, d₁, d₂, opens, built, closes⟩ := build_group_eq_ok.1 run
    have inner : body.Unmarked ∨ _ := marks.imp_left fun unmarked => by
      cases unmarked
      assumption
    exact steady.closes closes (ih inner built (steady.opens opens h))
  | piece marks' body quantifier ih =>
    obtain ⟨node, d₁, d₂, built, planted, rfl⟩ := build_piece_eq_ok.1 run
    rcases marks with unmarked | alike
    · -- marking is what it was before, so setting it back changes nothing
      cases unmarked with
      | piece inner =>
        have first := steady.restores h (ih (.inl inner) built h)
        exact steady.restores h (steady.repeated planted first)
    · have before := alike (Draft.alike_markIf marks'.leading d) h
      have first := steady.restores h (ih (.inr alike) built before)
      have second := steady.repeated planted (alike (Draft.alike_markIf marks'.inner _) first)
      exact alike (Draft.alike_markFromIf marks'.closing _ _) (steady.restores h second)
  | branch pieces ih =>
    obtain ⟨nodes, d₁, built, planted⟩ := build_branch_eq_ok.1 run
    refine steady.branch planted (preserved_of_buildAll (fun φ mem _ _ _ run h => ?_) built h)
    refine ih φ mem (marks.imp_left fun unmarked => ?_) run h
    cases unmarked with
    | branch all => exact all φ mem
  | choice first more ih ih' =>
    obtain ⟨node, others, d₁, d₂, head, tail, planted⟩ := build_choice_eq_ok.1 run
    have front : first.Unmarked ∨ _ := marks.imp_left fun unmarked => by
      cases unmarked
      assumption
    refine steady.choice planted (preserved_of_buildAll (fun φ mem _ _ _ run h => ?_) tail
      (ih front head h))
    refine ih' φ mem (marks.imp_left fun unmarked => ?_) run h
    cases unmarked with
    | choice _ all => exact all φ mem

/-! ## Marks -/

/-- No marker has been read into a draft. -/
structure Draft.Clean (d : Draft) : Prop where
  marking : d.marking = false
  hasMarker : d.hasMarker = false
  candidates : d.candidates = #[]

theorem Draft.Clean.plant (clean : d.Clean) (shape : Shape) : (d.plant shape).Clean where
  marking := clean.marking
  hasMarker := clean.hasMarker
  candidates := (if_neg (Bool.eq_false_iff.1 clean.marking)).trans clean.candidates

/-- Without a marker a phrase marks nothing. -/
theorem Draft.steady_clean : Draft.Steady Clean where
  plant := fun shape _ clean => clean.plant shape
  opens := by
    intro kind number d d' run clean
    cases kind <;> cases run <;> exact ⟨clean.marking, clean.hasMarker, clean.candidates⟩
  closes := by
    intro kind number body id d d' run clean
    -- which group is added does not count
    have planted := clean.plant (.group body none none)
    cases kind <;> cases number <;> cases run <;>
      exact ⟨planted.marking, planted.hasMarker, planted.candidates⟩
  restores := fun clean clean' => ⟨clean.marking, clean'.hasMarker, clean'.candidates⟩

/-- **A phrase without markers leaves no marks.** -/
theorem Phrase.Unmarked.clean {φ : Phrase} (unmarked : φ.Unmarked) (run : φ.build d = .ok id d')
    (clean : d.Clean) : d'.Clean :=
  preserved_of_build Draft.steady_clean (.inl unmarked) run clean

/-! ## Capture numbers -/

/-- The numbers under which groups capture have all been put down. -/
def Draft.Listed (d : Draft) : Prop :=
  ∀ id n, d.tree.capture? id = some n → n ∈ d.account.closed

/-- A node that is added captures under a number of its own, if any. -/
theorem Draft.Listed.plant (listed : d.Listed) {shape : Shape} {n : ℕ}
    (found : (d.plant shape).tree.capture? id = some n) :
    n ∈ d.account.closed ∨ shape.capture? = some n := by
  rw [capture?_plant] at found
  split at found
  · exact .inr found
  · exact .inl (listed _ _ found)

/-- Nothing captures under a number that the account does not know. -/
theorem Draft.steady_listed : Draft.Steady Listed where
  plant := by
    intro d shape none listed id n found
    refine (listed.plant found).resolve_right ?_
    rw [none]
    nofun
  opens := by
    intro kind number d d' run listed
    cases kind <;> cases run <;> exact listed
  closes := by
    intro kind number body id d d' run listed
    have plain {name : Option String} {id n : ℕ}
        (found : (d.plant (.group body name none)).tree.capture? id = some n) :
        n ∈ d.account.closed := (listed.plant found).resolve_right nofun
    have capturing (number : ℕ) : ({ d.plant (.group body none (some number)) with
        numbered := d.numbered.push (number, d.tree.size) } : Draft).Listed := by
      intro id n found
      have closed : ({ d.plant (.group body none (some number)) with
          numbered := d.numbered.push (number, d.tree.size) } : Draft).account.closed =
          d.account.closed ++ [number] := by
        simp [account]
      rw [closed, List.mem_append, List.mem_singleton]
      exact (listed.plant found).imp_right fun own => (Option.some.inj own).symm
    cases kind with
    | numbered =>
      cases number <;> cases run
      · exact fun _ _ => plain
      · exact capturing _
    | named name =>
      cases run
      exact fun _ _ => plain
    | plain =>
      cases number <;> cases run
      · exact fun _ _ => plain
      · exact capturing _
  restores := fun _ listed => listed

theorem Draft.Listed.alike (alike : d.Alike d') (listed : d.Listed) : d'.Listed := by
  intro id n found
  rw [alike.tree] at found
  rw [alike.account]
  exact listed id n found

/-- A phrase gives out no number that the account does not know. -/
theorem Phrase.listed_of_build {φ : Phrase} (run : φ.build d = .ok id d') (listed : d.Listed) :
    d'.Listed :=
  preserved_of_build Draft.steady_listed (.inr Draft.Listed.alike) run listed

/-! ## How many numbers there are -/

/-- No more numbers have been given out than nodes were added, if each named group counts as one. -/
def Draft.Backs (d d' : Draft) : Prop :=
  d'.opened + d'.named.size + d.tree.size ≤ d.opened + d.named.size + d'.tree.size

theorem Draft.Backs.refl (d : Draft) : d.Backs d :=
  le_refl (d.opened + d.named.size + d.tree.size)

theorem Draft.Backs.trans {d d' d'' : Draft} (first : d.Backs d') (second : d'.Backs d'') :
    d.Backs d'' := by
  unfold Backs at first second ⊢
  omega

/-- A node that is added needs no number. -/
theorem Draft.planting_backs (d : Draft) : Draft.Planting d.Backs where
  plant := by
    intro d' shape _ backs
    have size : (d'.plant shape).tree.size = d'.tree.size + 1 := Tree.size_adopt d'.tree shape
    have opened : (d'.plant shape).opened = d'.opened := rfl
    have named : (d'.plant shape).named = d'.named := rfl
    unfold Backs at backs ⊢
    rw [size, opened, named]
    omega
  restores := fun _ backs => backs

/-- A group takes a number where it opens or a name where it closes, and it has a node. -/
theorem Draft.backs_group {kind : GroupKind} {number : Option ℕ} {body : ℕ} {d₁ d₂ : Draft}
    (opens : openGroup kind d = .ok number d₁) (inner : d₁.Backs d₂)
    (closes : closeGroup kind number body d₂ = .ok id d') : d.Backs d' := by
  have size (shape : Shape) : (d₂.plant shape).tree.size = d₂.tree.size + 1 :=
    Tree.size_adopt d₂.tree shape
  have opened (shape : Shape) : (d₂.plant shape).opened = d₂.opened := rfl
  have named (shape : Shape) : (d₂.plant shape).named = d₂.named := rfl
  cases kind <;> cases opens <;> cases closes <;> unfold Backs at inner ⊢ <;>
    simp only [size, opened, named, Array.size_push] at inner ⊢ <;> omega

/-- **Each number has a node.** -/
theorem Phrase.backs_of_build {φ : Phrase} (run : φ.build d = .ok id d') : d.Backs d' := by
  induction φ using Phrase.induct generalizing d d' id with
  | atom a => exact d.planting_backs.atom run (.refl _)
  | group kind body ih =>
    obtain ⟨number, node, d₁, d₂, opens, built, closes⟩ := build_group_eq_ok.1 run
    exact Draft.backs_group opens (ih built) closes
  | piece marks body quantifier ih =>
    obtain ⟨node, d₁, d₂, built, planted, rfl⟩ := build_piece_eq_ok.1 run
    -- marks count neither for numbers nor for nodes
    have alike {d d₁ d₂ : Draft} (backs : d.Backs d₁) (alike : d₁.Alike d₂) : d.Backs d₂ := by
      unfold Draft.Backs at backs ⊢
      rwa [alike.tree, alike.opened, alike.named]
    have before := alike (.refl _) (Draft.alike_markIf marks.leading d)
    have first := d.planting_backs.restores (.refl _) (before.trans (ih built))
    have second := d.planting_backs.repeated planted
      (alike first (Draft.alike_markIf marks.inner _))
    exact alike (d.planting_backs.restores (.refl _) second)
      (Draft.alike_markFromIf marks.closing _ _)
  | branch pieces ih =>
    obtain ⟨nodes, d₁, built, planted⟩ := build_branch_eq_ok.1 run
    exact d.planting_backs.branch planted
      (preserved_of_buildAll (fun φ mem _ _ _ run h => h.trans (ih φ mem run)) built (.refl _))
  | choice first more ih ih' =>
    obtain ⟨node, others, d₁, d₂, head, tail, planted⟩ := build_choice_eq_ok.1 run
    exact d.planting_backs.choice planted
      (preserved_of_buildAll (fun φ mem _ _ _ run h => h.trans (ih' φ mem run)) tail (ih head))

/-- In the finished pattern no number is greater than the count of the numbers that were given out
and of the named groups. -/
theorem Draft.Sound.le_of_capture?_finish (sound : d.Sound) {root n : ℕ}
    (own : (d.finish root).tree.capture? id = some n) : n ≤ d.opened + d.named.size := by
  rcases capture?_finish own with ⟨-, old⟩ | ⟨name, mem⟩
  · exact (sound.opened id n old).trans (Nat.le_add_right _ _)
  · obtain ⟨le, look⟩ := List.mem_zipIdx_iff_le_and_getElem?_sub.1 mem
    have lt : n - (d.opened + 1) < d.named.toList.length := (List.getElem?_eq_some_iff.1 look).1
    rw [Array.length_toList] at lt
    omega

/-! ## Which numbers there are -/

/-- **The account tells the numbers under which groups capture** in the finished pattern. -/
theorem Draft.Sound.exists_capture?_finish_iff (sound : d.Sound) (distinct : d.Distinct)
    (listed : d.Listed) (root n : ℕ) :
    (∃ id, (d.finish root).tree.capture? id = some n) ↔ n ∈ d.account.closed ∨
      d.account.opened < n ∧ n ≤ d.account.opened + d.account.named.length := by
  constructor
  · rintro ⟨id, found⟩
    rcases capture?_finish found with ⟨-, old⟩ | ⟨name, mem⟩
    · exact .inl (listed id n old)
    · right
      obtain ⟨le, look⟩ := List.mem_zipIdx_iff_le_and_getElem?_sub.1 mem
      have lt := (List.getElem?_eq_some_iff.1 look).1
      have le : d.opened + 1 ≤ n := le
      have lt : n - (d.opened + 1) < d.named.toList.length := lt
      show d.opened < n ∧ n ≤ d.opened + (d.named.toList.map Prod.fst).length
      rw [List.length_map]
      omega
  · rintro (mem | ⟨lt, le⟩)
    · obtain ⟨target, mem⟩ := mem_closed.1 mem
      obtain ⟨body, look⟩ := sound.shape?_of_mem_numbered root mem
      exact ⟨target, Tree.capture?_of_shape? look⟩
    · have lt : d.opened < n := lt
      have le : n ≤ d.opened + (d.named.toList.map Prod.fst).length := le
      rw [List.length_map] at le
      obtain ⟨⟨name, target⟩, found⟩ : ∃ entry, d.named.toList[n - (d.opened + 1)]? = some entry :=
        ⟨_, List.getElem?_eq_getElem (by omega)⟩
      obtain ⟨body, look⟩ := sound.shape?_of_getElem?_named distinct root found
      have number : d.opened + 1 + (n - (d.opened + 1)) = n := by omega
      rw [number] at look
      exact ⟨target, Tree.capture?_of_shape? look⟩

end PatternSampler
