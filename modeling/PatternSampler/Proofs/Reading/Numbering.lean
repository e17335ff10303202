/-
# How groups are numbered

A numbered group gets its number when it opens, a named one when the whole pattern has been read, in
the order in which the named groups have been closed.

* `Site` : where a group stands in the text of a pattern, and its node.
* `Draft.Numbers` : what becomes of the account of groups while some groups are read.
* `Call.sites` : the groups that are read within a call.
* `Call.Ends.numbered` : what a call does to the account, and what it is meanwhile.
-/
import PatternSampler.Proofs.Reading.Position

namespace PatternSampler

open Reading

/-- A group in the text of a pattern: the positions of its parentheses, and the node of it. -/
structure Site where
  /-- Where the opening parenthesis stands. -/
  opens : ℕ
  /-- Where the closing parenthesis stands. -/
  closes : ℕ
  /-- The node that is made of the group. -/
  node : ℕ

namespace Draft

/-! ## Accounts of groups -/

/-- Two drafts have the same account of groups. -/
structure SameGroups (d d' : Draft) : Prop where
  opened : d'.opened = d.opened
  numbered : d'.numbered = d.numbered
  named : d'.named = d.named

theorem Alike.sameGroups {d d' : Draft} (alike : d.Alike d') : d.SameGroups d' :=
  ⟨alike.opened, alike.numbered, alike.named⟩

theorem SameGroups.trans {d d' d'' : Draft} (first : d.SameGroups d') (second : d'.SameGroups d'') :
    d.SameGroups d'' :=
  ⟨second.opened.trans first.opened, second.numbered.trans first.numbered,
    second.named.trans first.named⟩

theorem sameGroups_of_addsPlain {d d' : Draft} (adds : AddsPlain d d') : d.SameGroups d' := by
  rcases adds with rfl | ⟨shape, -, -, rfl⟩ <;> exact ⟨rfl, rfl, rfl⟩

/-- From one draft to another one some groups have been read, of which `unnamed` are the numbered
ones in the order in which they open and `named` are the named ones in the order in which they
close. -/
structure Numbers (d d' : Draft) (sites : Set (GroupKind × Site)) (unnamed named : List Site) :
    Prop where
  mem_unnamed : ∀ s, s ∈ unnamed ↔ (.numbered, s) ∈ sites
  mem_named : ∀ s, s ∈ named ↔ ∃ name, (.named name, s) ∈ sites
  sorted_unnamed : unnamed.Pairwise fun s s' => s.opens < s'.opens
  sorted_named : named.Pairwise fun s s' => s.closes < s'.closes
  opened : d'.opened = d.opened + unnamed.length
  kept : ∀ entry ∈ d.numbered, entry ∈ d'.numbered
  closed : ∀ i s, unnamed[i]? = some s → (d.opened + 1 + i, s.node) ∈ d'.numbered
  nodes : d'.named.toList.map Prod.snd = d.named.toList.map Prod.snd ++ named.map Site.node

namespace Numbers

variable {d d' d'' : Draft} {sites sites' : Set (GroupKind × Site)}
  {unnamed named unnamed' named' : List Site}

theorem same (groups : d.SameGroups d') : Numbers d d' ∅ [] [] where
  mem_unnamed := by simp
  mem_named := by simp
  sorted_unnamed := .nil
  sorted_named := .nil
  opened := groups.opened
  kept := fun entry mem => groups.numbered ▸ mem
  closed := by simp
  nodes := by simp [groups.named]

/-- Groups that do not capture do not count. -/
theorem congr (h : Numbers d d' sites unnamed named)
    (numbered : ∀ s, (GroupKind.numbered, s) ∈ sites ↔ (GroupKind.numbered, s) ∈ sites')
    (others : ∀ name s, (GroupKind.named name, s) ∈ sites ↔ (GroupKind.named name, s) ∈ sites') :
    Numbers d d' sites' unnamed named where
  mem_unnamed := fun s => (h.mem_unnamed s).trans (numbered s)
  mem_named := fun s => (h.mem_named s).trans (exists_congr fun name => others name s)
  sorted_unnamed := h.sorted_unnamed
  sorted_named := h.sorted_named
  opened := h.opened
  kept := h.kept
  closed := h.closed
  nodes := h.nodes

/-- Groups are read behind others. -/
theorem trans (first : Numbers d d' sites unnamed named)
    (second : Numbers d' d'' sites' unnamed' named')
    (order : ∀ p ∈ sites, ∀ p' ∈ sites', p.2.opens < p'.2.opens ∧ p.2.closes < p'.2.closes) :
    Numbers d d'' (sites ∪ sites') (unnamed ++ unnamed') (named ++ named') where
  mem_unnamed := by
    intro s
    rw [List.mem_append, first.mem_unnamed, second.mem_unnamed]
    rfl
  mem_named := by
    intro s
    rw [List.mem_append, first.mem_named, second.mem_named, ← exists_or]
    rfl
  sorted_unnamed := by
    refine List.pairwise_append.2 ⟨first.sorted_unnamed, second.sorted_unnamed, ?_⟩
    intro s mem s' mem'
    exact (order _ ((first.mem_unnamed s).1 mem) _ ((second.mem_unnamed s').1 mem')).1
  sorted_named := by
    refine List.pairwise_append.2 ⟨first.sorted_named, second.sorted_named, ?_⟩
    intro s mem s' mem'
    obtain ⟨name, inside⟩ := (first.mem_named s).1 mem
    obtain ⟨name', inside'⟩ := (second.mem_named s').1 mem'
    exact (order _ inside _ inside').2
  opened := by
    rw [second.opened, first.opened, List.length_append, Nat.add_assoc]
  kept := fun entry mem => second.kept entry (first.kept entry mem)
  closed := by
    intro i s look
    by_cases lt : i < unnamed.length
    · rw [List.getElem?_append_left lt] at look
      exact second.kept _ (first.closed i s look)
    · rw [List.getElem?_append_right (not_lt.1 lt)] at look
      have entry := second.closed _ s look
      have place : d'.opened + 1 + (i - unnamed.length) = d.opened + 1 + i := by
        rw [first.opened]
        omega
      rwa [place] at entry
  nodes := by
    rw [second.nodes, first.nodes, List.map_append, List.append_assoc]

/-- The account does not change in front of the groups and behind them. -/
theorem around (h : Numbers d' d'' sites unnamed named) {base top : Draft}
    (front : base.SameGroups d') (back : d''.SameGroups top) :
    Numbers base top sites unnamed named := by
  refine ⟨h.mem_unnamed, h.mem_named, h.sorted_unnamed, h.sorted_named, ?_, ?_, ?_, ?_⟩
  · rw [back.opened, h.opened, front.opened]
  · rw [back.numbered, ← front.numbered]
    exact h.kept
  · rw [back.numbered, ← front.opened]
    exact h.closed
  · rw [back.named, h.nodes, front.named]

/-- A numbered group is read, with others inside. -/
theorem group_numbered {number : Option ℕ} {body id : ℕ} {s : Site}
    (opens : openGroup .numbered d = .ok number d')
    (inner : Numbers d' d'' sites unnamed named) {top : Draft}
    (closes : closeGroup .numbered number body d'' = .ok id top) (node : s.node = id)
    (order : ∀ p ∈ sites, s.opens < p.2.opens) :
    Numbers d top (insert (.numbered, s) sites) (s :: unnamed) named := by
  cases opens
  cases closes
  have kept : ∀ entry ∈ d.numbered,
      entry ∈ d''.numbered.push (d.opened + 1, d''.tree.size) :=
    fun entry mem => Array.mem_push.2 (.inl (inner.kept entry mem))
  refine ⟨fun s' => ?_, fun s' => ?_, ?_, inner.sorted_named, ?_, kept, fun i s' look => ?_,
    inner.nodes⟩
  · rw [List.mem_cons, inner.mem_unnamed, Set.mem_insert_iff, Prod.mk.injEq]
    simp
  · rw [inner.mem_named]
    simp
  · refine List.pairwise_cons.2 ⟨fun s' mem => ?_, inner.sorted_unnamed⟩
    exact order _ ((inner.mem_unnamed s').1 mem)
  · show d''.opened = _
    rw [inner.opened, List.length_cons]
    show d.opened + 1 + unnamed.length = _
    omega
  · cases i with
    | zero =>
      cases look
      rw [node]
      exact Array.mem_push_self
    | succ i =>
      have entry : (d.opened + 1 + 1 + i, s'.node) ∈ d''.numbered := inner.closed i s' look
      have place : d.opened + 1 + 1 + i = d.opened + 1 + (i + 1) := by omega
      rw [place] at entry
      exact Array.mem_push.2 (.inl entry)

/-- A named group is read, with others inside. -/
theorem group_named {name : String} {number : Option ℕ} {body id : ℕ} {s : Site}
    (opens : openGroup (.named name) d = .ok number d')
    (inner : Numbers d' d'' sites unnamed named) {top : Draft}
    (closes : closeGroup (.named name) number body d'' = .ok id top) (node : s.node = id)
    (order : ∀ p ∈ sites, p.2.closes < s.closes) :
    Numbers d top (insert (.named name, s) sites) unnamed (named ++ [s]) := by
  cases opens
  cases closes
  refine ⟨fun s' => ?_, fun s' => ?_, inner.sorted_unnamed, ?_, inner.opened, inner.kept,
    inner.closed, ?_⟩
  · rw [inner.mem_unnamed]
    simp
  · rw [List.mem_append, List.mem_singleton, inner.mem_named]
    simp only [Set.mem_insert_iff, Prod.mk.injEq, GroupKind.named.injEq, exists_or, exists_eq_left]
    exact Or.comm
  · refine List.pairwise_append.2 ⟨inner.sorted_named, List.pairwise_singleton _ s, ?_⟩
    intro s' mem s'' mem'
    obtain ⟨name', inside⟩ := (inner.mem_named s').1 mem
    rw [List.mem_singleton.1 mem']
    exact order _ inside
  · show (d''.named.push (name, d''.tree.size)).toList.map Prod.snd = _
    rw [Array.toList_push, List.map_append, inner.nodes, List.map_append, List.append_assoc]
    simp [node]

end Numbers

end Draft

namespace Reading.Call

/-! ## The groups that are read -/

variable {B C C₁ C₂ G W : Call} {length : ℕ} {ids : List ℕ} {rest rest₁ : List Char}
  {d d₁ : Draft} {p : GroupKind × Site} {unnamed named unnamed' named' : List Site}

/-- A call reads a group that stands at some place in a pattern of the given length. -/
def ReadsSite (length : ℕ) (G : Call) (p : GroupKind × Site) : Prop :=
  G.expanding = false ∧ ∃ rest, G.ReadsGroup p.1 p.2.node rest ∧
    p.2.opens + G.text.length = length ∧ p.2.closes + (rest.length + 1) = length

/-- The groups of a pattern that are read within a call. -/
def sites (length : ℕ) (C : Call) : Set (GroupKind × Site) :=
  {p | ∃ G : Call, G.Within C ∧ G.ReadsSite length p}

theorem mem_sites_iff :
    p ∈ C.sites length ↔ C.ReadsSite length p ∨ ∃ C' ∈ C.calls, p ∈ C'.sites length := by
  constructor
  · rintro ⟨G, within, reads⟩
    rcases within_iff.1 within with rfl | ⟨C', mem, within'⟩
    · exact .inl reads
    · exact .inr ⟨C', mem, G, within', reads⟩
  · rintro (reads | ⟨C', mem, G, within, reads⟩)
    · exact ⟨C, .refl C, reads⟩
    · exact ⟨G, within.trans (within_of_mem mem), reads⟩

/-- A call is not one on a group in the text of the pattern. -/
def ReadsNoGroup (C : Call) : Prop :=
  C.expanding = false → C.level = .atom → C.text.head? ≠ some '('

theorem readsNoGroup_of_ne (level : C.level ≠ .atom) : C.ReadsNoGroup :=
  fun _ atom => absurd atom level

theorem readsNoGroup_of_expanding (on : C.expanding = true) : C.ReadsNoGroup :=
  fun off => absurd (off.symm.trans on) Bool.false_ne_true

theorem ReadsNoGroup.not_readsSite (other : C.ReadsNoGroup) : ¬ C.ReadsSite length p := by
  rintro ⟨off, rest, reads, -⟩
  obtain ⟨tail, inside, text, -⟩ := reads.opens
  apply other off reads.level
  rw [text]
  rfl

/-- The groups that are read within a call stand in its text, in front of what it leaves. -/
theorem bounds_of_mem_sites {kind : GroupKind} {s : Site} (ends : C.Ends ids rest d)
    (mem : (kind, s) ∈ C.sites length) :
    length ≤ s.opens + C.text.length ∧ s.opens < s.closes ∧ s.closes + rest.length < length := by
  obtain ⟨G, within, off, left, reads, opens, closes⟩ := mem
  have opens : s.opens + G.text.length = length := opens
  have closes : s.closes + (left.length + 1) = length := closes
  have text := (within.length_le ends off).2
  have short := reads.length_lt
  obtain ⟨d', ends'⟩ := reads.ends
  have same : G.expanding = C.expanding := within.expanding_eq ends off
  have behind := ((within.suffix ends same).2 ends').length_le
  omega

/-- What an atom other than a group, and what the end of a branch does. -/
theorem sites_of_no_calls (other : C.ReadsNoGroup)
    (none : C.calls = []) : C.sites length = ∅ := by
  ext p
  rw [mem_sites_iff, none]
  simp [other.not_readsSite]

/-- A call on something else than a group reads the groups that its calls read. -/
theorem sites_of_call (other : C.ReadsNoGroup)
    (calls : C.calls = [C₁]) : C.sites length = C₁.sites length := by
  ext p
  rw [mem_sites_iff, calls]
  simp [other.not_readsSite]

theorem sites_of_two_calls (other : C.ReadsNoGroup)
    (calls : C.calls = [C₁, C₂]) : C.sites length = C₁.sites length ∪ C₂.sites length := by
  ext p
  rw [mem_sites_iff, calls]
  simp [other.not_readsSite]

/-- A group reads itself and the groups inside. -/
theorem sites_of_group {kind : GroupKind} {id : ℕ} (off : G.expanding = false)
    (reads : G.ReadsGroup kind id rest) (calls : G.calls = [C₁]) {s : Site}
    (node : s.node = id) (opens : s.opens + G.text.length = length)
    (closes : s.closes + (rest.length + 1) = length) :
    G.sites length = insert (kind, s) (C₁.sites length) := by
  ext p
  rw [mem_sites_iff, calls, Set.mem_insert_iff]
  simp only [List.mem_singleton, exists_eq_left]
  apply or_congr_left'
  intro _
  constructor
  · rintro ⟨-, rest', reads', opens', closes'⟩
    obtain ⟨tail, inside, text, head⟩ := reads.opens
    obtain ⟨tail', inside', text', head'⟩ := reads'.opens
    obtain ⟨d, ends⟩ := reads.ends
    obtain ⟨d', ends'⟩ := reads'.ends
    obtain ⟨same, rfl, -⟩ := ends.unique ends'
    cases text.symm.trans text'
    obtain ⟨⟨⟩, -⟩ := Prod.mk.inj (Except.ok.inj (head.symm.trans head'))
    obtain ⟨kind, ⟨opens'', closes'', node''⟩⟩ := p
    have eq₁ : opens'' = s.opens := by
      have eq : opens'' + G.text.length = length := opens'
      omega
    have eq₂ : closes'' = s.closes := by
      have eq : closes'' + (rest.length + 1) = length := closes'
      omega
    have eq₃ : node'' = s.node := by
      rw [node]
      exact (List.singleton_inj.1 same).symm
    rw [eq₁, eq₂, eq₃]
  · rintro rfl
    subst node
    exact ⟨off, rest, reads, opens, closes⟩

/-! ## What calls do to the account -/

/-- How many of some groups open in front of a call. -/
def openedBefore (length : ℕ) (B : Call) (unnamed : List Site) : ℕ :=
  unnamed.countP fun s => s.opens + B.text.length < length

/-- What a call does to the account of groups, and what it is whenever another call is made. -/
structure Numbered (length : ℕ) (C : Call) (d : Draft) (unnamed named : List Site) : Prop where
  numbers : C.draft.Numbers d (C.sites length) unnamed named
  before : ∀ B : Call, B.Within C → B.expanding = false →
    B.draft.opened = C.draft.opened + B.openedBefore length unnamed

/-- No group of a call opens in front of it. -/
theorem openedBefore_self (ends : C.Ends ids rest d)
    (numbers : C.draft.Numbers d (C.sites length) unnamed named) :
    C.openedBefore length unnamed = 0 := by
  apply List.countP_eq_zero.2
  intro s mem
  obtain ⟨le, -⟩ := bounds_of_mem_sites ends ((numbers.mem_unnamed s).1 mem)
  rw [decide_eq_true_iff]
  show ¬ s.opens + C.text.length < length
  omega

theorem numbered_of_no_calls (ends : C.Ends ids rest d)
    (other : C.ReadsNoGroup) (none : C.calls = [])
    (groups : C.draft.SameGroups d) : Numbered length C d [] [] := by
  have numbers : C.draft.Numbers d (C.sites length) [] [] := by
    rw [sites_of_no_calls other none]
    exact .same groups
  refine ⟨numbers, fun B within _ => ?_⟩
  rcases within_iff.1 within with rfl | ⟨C', mem, -⟩
  · rw [openedBefore_self ends numbers, Nat.add_zero]
  · rw [none] at mem
    cases mem

/-- A call makes another one and does nothing else to the account. -/
theorem Numbered.outer (inner : Numbered length C₁ d₁ unnamed named) (ends : C.Ends ids rest d)
    (calls : C.calls = [C₁]) (front : C.draft.SameGroups C₁.draft) (back : d₁.SameGroups d)
    (numbered : ∀ s, (GroupKind.numbered, s) ∈ C₁.sites length ↔
      (GroupKind.numbered, s) ∈ C.sites length)
    (others : ∀ name s, (GroupKind.named name, s) ∈ C₁.sites length ↔
      (GroupKind.named name, s) ∈ C.sites length) : Numbered length C d unnamed named := by
  have numbers := (inner.numbers.around front back).congr numbered others
  refine ⟨numbers, fun B within off => ?_⟩
  rcases within_iff.1 within with rfl | ⟨C', mem, within'⟩
  · rw [openedBefore_self ends numbers, Nat.add_zero]
  · rw [calls] at mem
    obtain rfl := List.mem_singleton.1 mem
    rw [inner.before B within' off, front.opened]

/-- A call on something else than a group makes another one and does nothing else to the account. -/
theorem Numbered.through (inner : Numbered length C₁ d₁ unnamed named) (ends : C.Ends ids rest d)
    (other : C.ReadsNoGroup) (calls : C.calls = [C₁]) (front : C.draft.SameGroups C₁.draft)
    (back : d₁.SameGroups d) : Numbered length C d unnamed named := by
  have sites : C.sites length = C₁.sites length := sites_of_call other calls
  apply inner.outer ends calls front back
  · intro s
    rw [sites]
  · intro name s
    rw [sites]

/-- A call makes two calls, one behind the other. -/
theorem Numbered.both (first : Numbered length C₁ d₁ unnamed named)
    (second : Numbered length C₂ d unnamed' named') (ends : C.Ends ids rest d)
    {ids₁ : List ℕ} (ends₁ : C₁.Ends ids₁ rest₁ d₁) {ids₂ : List ℕ} (ends₂ : C₂.Ends ids₂ rest d)
    (other : C.ReadsNoGroup) (calls : C.calls = [C₁, C₂])
    (front : C.draft.SameGroups C₁.draft) (between : d₁.SameGroups C₂.draft)
    (text : C₂.text <:+ rest₁) : Numbered length C d (unnamed ++ unnamed') (named ++ named') := by
  have le := text.length_le
  have numbers : C.draft.Numbers d (C.sites length) (unnamed ++ unnamed') (named ++ named') := by
    rw [sites_of_two_calls other calls]
    apply (first.numbers.around front between).trans second.numbers
    rintro ⟨kind, s⟩ mem ⟨kind', s'⟩ mem'
    have bounds := bounds_of_mem_sites ends₁ mem
    have bounds' := bounds_of_mem_sites ends₂ mem'
    show s.opens < s'.opens ∧ s.closes < s'.closes
    omega
  refine ⟨numbers, fun B within off => ?_⟩
  rcases within_iff.1 within with rfl | ⟨C', mem, within'⟩
  · rw [openedBefore_self ends numbers, Nat.add_zero]
  · rw [calls] at mem
    have split : B.openedBefore length (unnamed ++ unnamed') =
        B.openedBefore length unnamed + B.openedBefore length unnamed' := List.countP_append
    rw [split]
    rcases List.mem_cons.1 mem with rfl | mem
    · -- the groups of the second call open behind all calls within the first one
      have later : B.openedBefore length unnamed' = 0 := by
        apply List.countP_eq_zero.2
        intro s mem
        obtain ⟨le', -⟩ := bounds_of_mem_sites ends₂ ((second.numbers.mem_unnamed s).1 mem)
        have behind := (within'.length_le ends₁ off).1
        rw [decide_eq_true_iff]
        show ¬ s.opens + B.text.length < length
        omega
      rw [first.before B within' off, later, front.opened, Nat.add_zero]
    · obtain rfl := List.mem_singleton.1 mem
      -- the groups of the first call open in front of all calls within the second one
      have earlier : B.openedBefore length unnamed = unnamed.length := by
        apply List.countP_eq_length.2
        intro s mem
        have bounds := bounds_of_mem_sites ends₁ ((first.numbers.mem_unnamed s).1 mem)
        have inside := (within'.length_le ends₂ off).2
        rw [decide_eq_true_iff]
        omega
      rw [second.before B within' off, earlier, between.opened, first.numbers.opened,
        front.opened]
      omega

/-- A group that does not capture does nothing to the account. -/
theorem sameGroups_of_plain {number : Option ℕ} {body id : ℕ} {d₀ d₂ d₃ : Draft}
    (opens : openGroup .plain d₀ = .ok number d₁)
    (closes : closeGroup .plain number body d₂ = .ok id d₃) :
    d₀.SameGroups d₁ ∧ d₂.SameGroups d₃ := by
  cases opens
  cases closes
  exact ⟨⟨rfl, rfl, rfl⟩, ⟨rfl, rfl, rfl⟩⟩

theorem opened_of_numbered {number : Option ℕ} (opens : openGroup .numbered d = .ok number d₁) :
    d₁.opened = d.opened + 1 := by
  cases opens
  rfl

theorem opened_of_named {name : String} {number : Option ℕ}
    (opens : openGroup (.named name) d = .ok number d₁) : d₁.opened = d.opened := by
  cases opens
  rfl

/-- A group opens, what is inside is read, and it closes. -/
theorem Numbered.group {kind : GroupKind} {number : Option ℕ} {body id : ℕ} {ids₁ : List ℕ}
    {d₂ : Draft} (inner : Numbered length C₁ d₁ unnamed named) (ends : C.Ends [id] rest d)
    (ends₁ : C₁.Ends ids₁ (')' :: rest) d₁) (reads : C.ReadsGroup kind id rest)
    (calls : C.calls = [C₁]) (shorter : C₁.text.length < C.text.length)
    (opens : openGroup kind C.draft = .ok number C₁.draft) (between : d₁.SameGroups d₂)
    (closes : closeGroup kind number body d₂ = .ok id d) (off : C.expanding = false)
    (le : C.text.length ≤ length) :
    ∃ unnamed named, Numbered length C d unnamed named := by
  have short := reads.length_lt
  obtain ⟨s, node, left, right⟩ : ∃ s : Site, s.node = id ∧ s.opens + C.text.length = length ∧
      s.closes + (rest.length + 1) = length :=
    ⟨⟨length - C.text.length, length - (rest.length + 1), id⟩, rfl, Nat.sub_add_cancel le,
      Nat.sub_add_cancel (by omega)⟩
  have sites := sites_of_group off reads calls node left right
  have bounds {kind' : GroupKind} {s' : Site} (mem : (kind', s') ∈ C₁.sites length) :
      s.opens < s'.opens ∧ s'.closes < s.closes := by
    have bounds := bounds_of_mem_sites ends₁ mem
    rw [List.length_cons] at bounds
    omega
  cases kind with
  | plain =>
    obtain ⟨front, back⟩ := sameGroups_of_plain opens closes
    refine ⟨unnamed, named, inner.outer ends calls front (between.trans back) ?_ ?_⟩
    all_goals simp [sites]
  | numbered =>
    have numbers : C.draft.Numbers d (C.sites length) (s :: unnamed) named := by
      rw [sites]
      refine .group_numbered opens (inner.numbers.around ⟨rfl, rfl, rfl⟩ between) closes node ?_
      rintro ⟨kind', s'⟩ mem
      exact (bounds mem).1
    refine ⟨s :: unnamed, named, numbers, fun B within off' => ?_⟩
    rcases within_iff.1 within with rfl | ⟨C', mem, within'⟩
    · rw [openedBefore_self ends numbers, Nat.add_zero]
    · rw [calls] at mem
      obtain rfl := List.mem_singleton.1 mem
      have inside := (within'.length_le ends₁ off').2
      have first : B.openedBefore length (s :: unnamed) = B.openedBefore length unnamed + 1 := by
        apply List.countP_cons_of_pos
        rw [decide_eq_true_iff]
        omega
      rw [inner.before B within' off', first, opened_of_numbered opens]
      omega
  | named name =>
    have numbers : C.draft.Numbers d (C.sites length) unnamed (named ++ [s]) := by
      rw [sites]
      refine .group_named opens (inner.numbers.around ⟨rfl, rfl, rfl⟩ between) closes node ?_
      rintro ⟨kind', s'⟩ mem
      exact (bounds mem).2
    refine ⟨unnamed, named ++ [s], numbers, fun B within off' => ?_⟩
    rcases within_iff.1 within with rfl | ⟨C', mem, within'⟩
    · rw [openedBefore_self ends numbers, Nat.add_zero]
    · rw [calls] at mem
      obtain rfl := List.mem_singleton.1 mem
      rw [inner.before B within' off', opened_of_named opens]

/-- **What a call within a pattern does to the account of groups.** -/
theorem Ends.numbered {ids' : List ℕ} {rest' : List Char} {d' : Draft} (whole : W.Ends ids' rest' d')
    (outside : W.expanding = false) (ends : C.Ends ids rest d) (within : C.Within W) :
    ∃ unnamed named, Numbered W.text.length C d unnamed named := by
  induction ends using Ends.induct with
  | step ends same course ih =>
    have each (C' : Call) (mem : C' ∈ _) {ids : List ℕ} {rest : List Char} {d : Draft}
        (ends : C'.Ends ids rest d) : ∃ unnamed named, Numbered W.text.length C' d unnamed named :=
      ih C' mem ends ((within_of_mem (same ▸ mem)).trans within)
    cases course with
    | atom plain _ _ built =>
      obtain ⟨shape, -, rfl, -⟩ := exists_plant_of_build_atom built
      exact ⟨_, _, numbered_of_no_calls ends (fun _ _ => plain) same ⟨rfl, rfl, rfl⟩⟩
    | expansion plain _ _ inner planted =>
      obtain ⟨unnamed, named, numbered⟩ := each _ List.mem_cons_self inner
      have back := Draft.sameGroups_of_addsPlain (addsPlain_plantAlternatives planted)
      exact ⟨_, _, numbered.through ends (fun _ _ => plain) same ⟨rfl, rfl, rfl⟩ back⟩
    | @group expanding tail inside _ kind _ _ _ id _ _ _ _ _ _ head opens inner planted closes =>
      obtain ⟨unnamed, named, numbered⟩ := each _ List.mem_cons_self inner
      have between := Draft.sameGroups_of_addsPlain (addsPlain_plantAlternatives planted)
      have reads : ReadsGroup ⟨expanding, .atom, '(' :: tail, _⟩ kind id _ :=
        ⟨rfl, ⟨tail, inside, rfl, head⟩, _, ends⟩
      cases expanding with
      | true =>
        obtain rfl := within.eq_plain whole outside rfl reads
        obtain ⟨front, back⟩ := sameGroups_of_plain opens closes
        have back' := between.trans back
        exact ⟨_, _, numbered.through ends (readsNoGroup_of_expanding rfl) same front back'⟩
      | false =>
        have shorter : inside.length < tail.length + 1 :=
          Nat.lt_succ_of_le (readGroupHead_length head)
        exact numbered.group ends inner reads same shorter opens between closes rfl
          (within.length_le whole rfl).2
    | @piece expanding cs rest₁ rest₂ node id quantifier d₀ d₁ d₂ inner _ planted =>
      obtain ⟨unnamed, named, numbered⟩ := each _ List.mem_cons_self inner
      -- markers do not count for the account
      have front := (Draft.alike_markIf (atMarker cs) d₀).sameGroups
      have between := (Draft.alike_marking d₁ d₀.marking).trans
        (Draft.alike_markIf (atQuantifierMarker rest₁) _)
      have behind := (Draft.alike_marking d₂ d₀.marking).trans
        (Draft.alike_markFromIf (atClosingMarker rest₂) d₀.tree.size _)
      have back := (between.sameGroups.trans
        (Draft.sameGroups_of_addsPlain (addsPlain_repeated planted))).trans behind.sameGroups
      exact ⟨_, _, numbered.through ends (readsNoGroup_of_ne (by simp)) same front back⟩
    | stop stop =>
      exact ⟨_, _, numbered_of_no_calls ends (readsNoGroup_of_ne (by simp)) same ⟨rfl, rfl, rfl⟩⟩
    | next _ first others =>
      obtain ⟨unnamed, named, numbered⟩ := each _ List.mem_cons_self first
      obtain ⟨unnamed', named', numbered'⟩ :=
        each _ (List.mem_cons_of_mem _ List.mem_cons_self) others
      exact ⟨_, _, numbered.both numbered' ends first others (readsNoGroup_of_ne (by simp)) same
        ⟨rfl, rfl, rfl⟩ ⟨rfl, rfl, rfl⟩ List.suffix_rfl⟩
    | last first _ planted =>
      obtain ⟨unnamed, named, numbered⟩ := each _ List.mem_cons_self first
      have back := Draft.sameGroups_of_addsPlain (addsPlain_plantBranch planted)
      exact ⟨_, _, numbered.through ends (readsNoGroup_of_ne (by simp)) same ⟨rfl, rfl, rfl⟩ back⟩
    | @more _ _ tail _ _ _ _ _ _ _ _ first planted others =>
      obtain ⟨unnamed, named, numbered⟩ := each _ List.mem_cons_self first
      obtain ⟨unnamed', named', numbered'⟩ :=
        each _ (List.mem_cons_of_mem _ List.mem_cons_self) others
      have between := Draft.sameGroups_of_addsPlain (addsPlain_plantBranch planted)
      exact ⟨_, _, numbered.both numbered' ends first others (readsNoGroup_of_ne (by simp)) same
        ⟨rfl, rfl, rfl⟩ between (List.suffix_cons '|' tail)⟩

end Reading.Call

end PatternSampler
