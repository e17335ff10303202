/-
# What counts of a draft

What is read next depends on what has been read before, but only on little of it: how many sets
there are, how many groups have been opened, and which ones are closed.

* `Account` is what counts of a draft, `Draft.account` the account of a draft.
* `Draft.Begins` : a draft may become another one.
* `Draft.Captures` : a node is a group that captures under a number, in whatever a draft may become.
* `Draft.exists_ofNumber?` and `Draft.exists_ofName?` : the account tells that number.
-/
import PatternSampler.Proofs.Reading.Finish
import PatternSampler.Proofs.Tree.Skeleton

namespace PatternSampler

open Reading

/-! ## Accounts -/

/-- What counts of a draft for the meaning of what is read next. -/
structure Account where
  /-- How many sets there are. -/
  sets : ℕ
  /-- How many numbered groups have been opened. -/
  opened : ℕ
  /-- The numbers of the numbered groups that are closed. -/
  closed : List ℕ
  /-- The names of the named groups that are closed. -/
  named : List String

/-- The account of a draft. -/
def Draft.account (d : Draft) : Account where
  sets := d.tree.rank d.tree.size
  opened := d.opened
  closed := d.numbered.toList.map Prod.fst
  named := d.named.toList.map Prod.fst

namespace Account

/-- A group opens. -/
def opening (n : Account) : GroupKind → Account
  | .numbered => { n with opened := n.opened + 1 }
  | .named _ | .plain => n

/-- A group closes that opened when the account was `n`. -/
def closing (m n : Account) : GroupKind → Account
  | .numbered => { m with closed := m.closed ++ [n.opened + 1] }
  | .named name => { m with named := m.named ++ [name] }
  | .plain => m

/-- The number under which a group captures that opened when the account was `n`, if `total`
numbered groups are opened in the whole pattern. -/
def capture (m n : Account) (total : ℕ) : GroupKind → Option ℕ
  | .numbered => some (n.opened + 1)
  | .named _ => some (total + 1 + m.named.length)
  | .plain => none

/-- The number of the group that a number in a backreference refers to. -/
def ofNumber? (n : Account) (total number : ℕ) : Option ℕ :=
  if number ∈ n.closed then some number
  else if n.opened < number ∧ number - (n.opened + 1) < n.named.length then
    some (total + 1 + (number - (n.opened + 1)))
  else none

/-- The number of the group that a name in a backreference refers to. -/
def ofName? (n : Account) (total : ℕ) (name : String) : Option ℕ :=
  (n.named.findIdx? (· == name)).map (total + 1 + ·)

end Account

/-! ## Finished drafts -/

namespace Draft

/-- What is in a draft is still there in another one. -/
structure Begins (d d' : Draft) : Prop where
  size : d.tree.size ≤ d'.tree.size
  shapes : ∀ id < d.tree.size, d'.tree.shape? id = d.tree.shape? id
  numbered : d.numbered.toList <+: d'.numbered.toList
  named : d.named.toList <+: d'.named.toList

/-- The named groups are all different. -/
structure Distinct (d : Draft) : Prop where
  nodup : (d.named.toList.map Prod.snd).Nodup
  exist : ∀ id ∈ d.named.toList.map Prod.snd, id < d.tree.size

theorem Begins.refl (d : Draft) : d.Begins d where
  size := le_rfl
  shapes := fun _ _ => rfl
  numbered := List.prefix_rfl
  named := List.prefix_rfl

theorem Begins.trans {d d' d'' : Draft} (first : d.Begins d') (second : d'.Begins d'') :
    d.Begins d'' where
  size := first.size.trans second.size
  shapes := fun id lt => (second.shapes id (lt.trans_le first.size)).trans (first.shapes id lt)
  numbered := first.numbered.trans second.numbered
  named := first.named.trans second.named

theorem begins_plant (d : Draft) (shape : Shape) : d.Begins (d.plant shape) where
  size := (Nat.le_succ _).trans (Tree.size_adopt d.tree shape).ge
  shapes := fun _ lt => Tree.shape?_adopt_of_lt lt
  numbered := List.prefix_rfl
  named := List.prefix_rfl

theorem begins_push_numbered (d : Draft) (entry : ℕ × ℕ) :
    d.Begins { d with numbered := d.numbered.push entry } where
  size := le_rfl
  shapes := fun _ _ => rfl
  numbered := by
    rw [Array.toList_push]
    exact List.prefix_append _ _
  named := List.prefix_rfl

theorem begins_push_named (d : Draft) (entry : String × ℕ) :
    d.Begins { d with named := d.named.push entry } where
  size := le_rfl
  shapes := fun _ _ => rfl
  numbered := List.prefix_rfl
  named := by
    rw [Array.toList_push]
    exact List.prefix_append _ _

theorem Alike.begins {d d' : Draft} (alike : d.Alike d') : d.Begins d' := by
  obtain ⟨tree, _, _, _, opened, numbered, named⟩ := d
  obtain ⟨tree', _, _, _, opened', numbered', named'⟩ := d'
  obtain ⟨rfl, rfl, rfl, rfl⟩ := alike
  exact ⟨le_rfl, fun _ _ => rfl, List.prefix_rfl, List.prefix_rfl⟩

theorem Alike.account {d d' : Draft} (alike : d.Alike d') : d'.account = d.account := by
  obtain ⟨tree, _, _, _, opened, numbered, named⟩ := d
  obtain ⟨tree', _, _, _, opened', numbered', named'⟩ := d'
  obtain ⟨rfl, rfl, rfl, rfl⟩ := alike
  rfl

theorem Alike.distinct {d d' : Draft} (alike : d.Alike d') (h : d.Distinct) : d'.Distinct := by
  obtain ⟨tree, _, _, _, opened, numbered, named⟩ := d
  obtain ⟨tree', _, _, _, opened', numbered', named'⟩ := d'
  obtain ⟨rfl, rfl, rfl, rfl⟩ := alike
  exact ⟨h.nodup, h.exist⟩

/-- Ranks do not change while nodes are added. -/
theorem Begins.rank {d d' : Draft} (h : d.Begins d') {place : ℕ} (le : place ≤ d.tree.size) :
    d'.tree.rank place = d.tree.rank place := by
  induction place with
  | zero => rfl
  | succ place ih =>
    have lt : place < d.tree.size := le
    rw [Tree.rank, Tree.rank, Nat.count_succ, Nat.count_succ, h.shapes place lt]
    congr 1
    exact ih lt.le

theorem account_plant (d : Draft) (shape : Shape) :
    (d.plant shape).account =
      { d.account with sets := d.account.sets + if shape.isSet then 1 else 0 } := by
  have size : (d.plant shape).tree.size = d.tree.size + 1 := Tree.size_adopt d.tree shape
  have here : (d.plant shape).tree.shape? d.tree.size = some shape := shape?_plant_size d shape
  have rank : (d.plant shape).tree.rank (d.plant shape).tree.size =
      d.tree.rank d.tree.size + if shape.isSet then 1 else 0 := by
    rw [size, Tree.rank, Nat.count_succ, here]
    congr 1
    exact (begins_plant d shape).rank le_rfl
  unfold account
  rw [rank]
  rfl

/-! ### Groups in a finished draft -/

variable {F : Draft}

/-- The number that a named group gets. -/
theorem Distinct.numberOf? (distinct : F.Distinct) {place id : ℕ} {name : String}
    (found : F.named.toList[place]? = some (name, id)) :
    numberOf? F.numbers id = some (F.opened + 1 + place) := by
  have entry : ((name, id), F.opened + 1 + place) ∈ F.numbers := by
    rw [numbers, List.mem_zipIdx_iff_le_and_getElem?_sub]
    constructor
    · show F.opened + 1 ≤ F.opened + 1 + place
      omega
    · show F.named.toList[F.opened + 1 + place - (F.opened + 1)]? = some (name, id)
      rw [Nat.add_sub_cancel_left]
      exact found
  obtain ⟨n, number⟩ := exists_numberOf? entry
  obtain ⟨name', entry'⟩ := exists_mem_of_numberOf? number
  rw [numbers, List.mem_zipIdx_iff_le_and_getElem?_sub] at entry'
  obtain ⟨le, found'⟩ := entry'
  -- the places of both entries hold the same group
  have same : n - (F.opened + 1) = place := by
    have at_place : (F.named.toList.map Prod.snd)[place]? = some id := by
      rw [List.getElem?_map, found]
      rfl
    have at_other : (F.named.toList.map Prod.snd)[n - (F.opened + 1)]? = some id := by
      rw [List.getElem?_map, found']
      rfl
    obtain ⟨lt, eq⟩ := List.getElem?_eq_some_iff.1 at_place
    obtain ⟨lt', eq'⟩ := List.getElem?_eq_some_iff.1 at_other
    exact distinct.nodup.getElem_inj_iff.1 (eq'.trans eq.symm)
  have le : F.opened + 1 ≤ n := le
  rw [number]
  congr 1
  omega

/-- A group without a name gets no other number. -/
theorem Sound.numberOf?_eq_none (sound : F.Sound) {id : ℕ} {shape : Shape}
    (look : F.tree.shape? id = some shape)
    (unnamed : ∀ body name, shape ≠ .group body (some name) none) :
    PatternSampler.numberOf? F.numbers id = none := by
  by_contra some
  obtain ⟨n, number⟩ := Option.ne_none_iff_exists'.1 some
  obtain ⟨name, entry⟩ := exists_mem_of_numberOf? number
  have mem : (name, id) ∈ F.named.toList := List.fst_mem_of_mem_zipIdx entry
  obtain ⟨body, look'⟩ := sound.named name id (Array.mem_toList_iff.1 mem)
  exact unnamed body name (Option.some.inj (look.symm.trans look'))

/-- The expression of a node in a finished draft. -/
theorem Sound.expr_finish (sound : F.Sound) {root id : ℕ} {shape : Shape}
    (look : F.tree.shape? id = some shape) :
    (F.finish root).tree.expr id =
      (shape.renumbered (PatternSampler.numberOf? F.numbers id)).unfold id
        (F.finish root).tree.expr := by
  apply Tree.expr_eq (sound.wellFormed_finish root).ordered
  rw [shape?_finish, look]
  rfl

/-- A node that is no named group keeps its shape. -/
theorem Sound.shape?_finish_of (sound : F.Sound) {root id : ℕ} {shape : Shape}
    (look : F.tree.shape? id = some shape)
    (unnamed : ∀ body name, shape ≠ .group body (some name) none) :
    (F.finish root).tree.shape? id = some shape := by
  rw [shape?_finish, look, sound.numberOf?_eq_none look unnamed]
  rfl

/-- The number of a group without a name in a finished draft. -/
theorem Sound.shape?_of_mem_numbered (sound : F.Sound) (root : ℕ) {number id : ℕ}
    (mem : (number, id) ∈ F.numbered) :
    ∃ body, (F.finish root).tree.shape? id = some (.group body none (some number)) := by
  obtain ⟨body, look⟩ := sound.numbered number id mem
  exact ⟨body, sound.shape?_finish_of look (by simp)⟩

/-- The number of a named group in a finished draft. -/
theorem Sound.shape?_of_getElem?_named (sound : F.Sound) (distinct : F.Distinct) (root : ℕ)
    {place id : ℕ} {name : String} (found : F.named.toList[place]? = some (name, id)) :
    ∃ body, (F.finish root).tree.shape? id =
      some (.group body (some name) (some (F.opened + 1 + place))) := by
  have mem : (name, id) ∈ F.named := Array.mem_toList_iff.1 (List.mem_of_getElem? found)
  obtain ⟨body, look⟩ := sound.named name id mem
  refine ⟨body, ?_⟩
  rw [shape?_finish, look, distinct.numberOf? found]
  rfl

/-- A node is a group that captures under a number, in whatever a draft may become. -/
def Captures (d : Draft) (total target number : ℕ) : Prop :=
  ∀ F : Draft, d.Begins F → F.Sound → F.Distinct → F.opened = total → ∀ root,
    ∃ body name, (F.finish root).tree.shape? target = some (.group body name (some number))

variable {d : Draft} {total : ℕ}

/-- Groups that are closed stay closed. -/
theorem Begins.mem_numbered (begins : d.Begins F) {entry : ℕ × ℕ} (mem : entry ∈ d.numbered) :
    entry ∈ F.numbered :=
  Array.mem_toList_iff.1 (begins.numbered.subset (Array.mem_toList_iff.2 mem))

theorem Begins.getElem?_named (begins : d.Begins F) {place : ℕ} {entry : String × ℕ}
    (found : d.named.toList[place]? = some entry) : F.named.toList[place]? = some entry := by
  obtain ⟨more, eq⟩ := begins.named
  rw [← eq, List.getElem?_append_left (List.getElem?_eq_some_iff.1 found).1]
  exact found

theorem captures_numbered {number target : ℕ} (mem : (number, target) ∈ d.numbered) :
    d.Captures total target number := by
  intro F begins sound _ _ root
  obtain ⟨body, look⟩ := sound.shape?_of_mem_numbered root (begins.mem_numbered mem)
  exact ⟨body, none, look⟩

theorem captures_named {place target : ℕ} {name : String}
    (found : d.named.toList[place]? = some (name, target)) :
    d.Captures total target (total + 1 + place) := by
  rintro F begins sound distinct rfl root
  have found' := begins.getElem?_named found
  obtain ⟨body, look⟩ := sound.shape?_of_getElem?_named distinct root found'
  exact ⟨body, some name, look⟩

theorem mem_closed {number : ℕ} :
    number ∈ d.account.closed ↔ ∃ target, (number, target) ∈ d.numbered := by
  constructor
  · intro mem
    obtain ⟨⟨_, target⟩, found, rfl⟩ := List.mem_map.1 mem
    exact ⟨target, Array.mem_toList_iff.1 found⟩
  · rintro ⟨target, mem⟩
    exact List.mem_map.2 ⟨_, Array.mem_toList_iff.2 mem, rfl⟩

/-- What a number leads to captures under the number that the account tells. -/
theorem exists_ofNumber? (total : ℕ) {number target : ℕ}
    (found : d.groupOfNumber? number = some target) :
    ∃ n, d.account.ofNumber? total number = some n ∧ d.Captures total target n := by
  unfold groupOfNumber? at found
  unfold Account.ofNumber?
  split at found
  · next n _ first =>
    cases found
    obtain rfl : n = number := by simpa using Array.find?_some first
    have mem := Array.mem_of_find?_eq_some first
    rw [if_pos (mem_closed.2 ⟨target, mem⟩)]
    exact ⟨n, rfl, captures_numbered mem⟩
  · next none =>
    have fresh : number ∉ d.account.closed := by
      intro mem
      obtain ⟨target, mem⟩ := mem_closed.1 mem
      have other := Array.find?_eq_none.1 none _ mem
      simp at other
    rw [if_neg fresh]
    split at found
    · next later =>
      obtain ⟨⟨name, _⟩, look, rfl⟩ := Option.map_eq_some_iff.1 found
      rw [← Array.getElem?_toList] at look
      have lt : number - (d.opened + 1) < d.account.named.length := by
        rw [account, List.length_map]
        exact (List.getElem?_eq_some_iff.1 look).1
      rw [if_pos ⟨later, lt⟩]
      exact ⟨_, rfl, captures_named look⟩
    · cases found

theorem exists_groupOfNumber? {number n : ℕ} (found : d.account.ofNumber? total number = some n) :
    ∃ target, d.groupOfNumber? number = some target := by
  unfold Account.ofNumber? at found
  unfold groupOfNumber?
  split
  · exact ⟨_, rfl⟩
  · next none =>
    split at found
    · next mem =>
      obtain ⟨target, mem⟩ := mem_closed.1 mem
      have other := Array.find?_eq_none.1 none _ mem
      simp at other
    · split at found
      · next both =>
        have lt : number - (d.opened + 1) < d.named.size := by
          have lt := both.2
          rwa [account, List.length_map, Array.length_toList] at lt
        have later : d.opened < number := both.1
        rw [if_pos later, Array.getElem?_eq_getElem lt]
        exact ⟨_, rfl⟩
      · cases found

/-- The first group of a name stands at the place where the name is first put down. -/
theorem groupOfName?_eq (d : Draft) (name : String) :
    d.groupOfName? name =
      (d.account.named.findIdx? (· == name)).bind fun place =>
        d.named.toList[place]?.map Prod.snd := by
  rw [groupOfName?, account, List.findIdx?_map, ← Array.find?_toList,
    List.find?_eq_bind_findIdx?_getElem?, Option.map_bind]
  rfl

/-- What a name leads to captures under the number that the account tells. -/
theorem exists_ofName? (total : ℕ) {name : String} {target : ℕ}
    (found : d.groupOfName? name = some target) :
    ∃ n, d.account.ofName? total name = some n ∧ d.Captures total target n := by
  rw [groupOfName?_eq] at found
  obtain ⟨place, first, look⟩ := Option.bind_eq_some_iff.1 found
  obtain ⟨⟨name', _⟩, found', rfl⟩ := Option.map_eq_some_iff.1 look
  exact ⟨_, by rw [Account.ofName?, first]; rfl, captures_named found'⟩

theorem exists_groupOfName? {name : String} {n : ℕ}
    (found : d.account.ofName? total name = some n) :
    ∃ target, d.groupOfName? name = some target := by
  obtain ⟨place, first, -⟩ := Option.map_eq_some_iff.1 found
  have lt : place < d.named.toList.length := by
    have lt := (List.findIdx?_eq_some_iff_getElem.1 first).1
    rwa [account, List.length_map] at lt
  rw [groupOfName?_eq, first]
  exact ⟨_, by rw [Option.bind_some, List.getElem?_eq_getElem lt]; rfl⟩

end Draft

end PatternSampler
